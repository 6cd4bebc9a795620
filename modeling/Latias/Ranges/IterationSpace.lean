import Latias.Library.ListOrder
import Latias.Ranges.ExactFootprint

/-! Which points of the iteration space of an Op its visits compute. -/

namespace TileExp.Analysis

open Checked LoopNest TailRadix

def opLoops (op : NodePtr) (log : List Event) : List (List LoopState) :=
  log.filterMap fun event => match event with
    | .opCharge eva loops _ _ => if eva = op then some loops else none
    | _ => none

def Evaluator.opDims (ev : Evaluator) (op : NodePtr) : List String :=
  (ev.opNests op).flatten.map Descriptor.name_

/-- Whether a visit of an Op computes a point: in each dimension it computes as many indices as the
    loops of the Op have, from the first index inside the iterations around it. -/
def Evaluator.Computes (ev : Evaluator) (op : NodePtr) (p : String → Int) (u : List LoopState) : Prop :=
  ∀ dim_name ∈ ev.opDims op, ev.globalIndex op u dim_name ≤ p dim_name ∧
    p dim_name < ev.globalIndex op u dim_name + ev.executed op u dim_name

instance (ev : Evaluator) (op : NodePtr) (p : String → Int) : DecidablePred (ev.Computes op p) :=
  fun _ => inferInstanceAs (Decidable (∀ dim_name ∈ ev.opDims op, _))

def Evaluator.timesComputed (ev : Evaluator) (op : NodePtr) (log : List Event) (p : String → Int) : Nat :=
  (opLoops op log).countP fun u => ev.Computes op p u

def Evaluator.InSpace (ev : Evaluator) (op : NodePtr) (p : String → Int) : Prop :=
  ∀ dim_name ∈ ev.opDims op, 0 ≤ p dim_name ∧ p dim_name < ev.workloads_.factorized_bound dim_name

instance (ev : Evaluator) (op : NodePtr) (p : String → Int) : Decidable (ev.InSpace op p) :=
  inferInstanceAs (Decidable (∀ dim_name ∈ ev.opDims op, _))

variable {ev : Evaluator} {state : EvalState} {tree : EvaTree} {t : Tally} {op : NodePtr}
  {p : String → Int} {u v w : List LoopState}

section Log

def markLoops (op : NodePtr) (marks : List Mark) : List (List LoopState) :=
  marks.filterMap fun mark => match mark with
    | .op eva loops => if eva = op then some loops else none
    | _ => none

theorem opLoops_eq (t : Tally) : opLoops op t.log = markLoops op (LoopNest.marks t) := by
  rw [opLoops, markLoops, LoopNest.marks, List.filterMap_map]
  congr 1
  funext event
  cases event <;> rfl

theorem markLoops_append (a b : List Mark) : markLoops op (a ++ b) = markLoops op a ++ markLoops op b :=
  List.filterMap_append

theorem markLoops_under (marks : List Mark) :
    markLoops op (marks.filter (Mark.under op)) = markLoops op marks := by
  rw [markLoops, markLoops, List.filterMap_filter]
  congr 1
  funext mark
  cases mark with
  | op eva loops =>
    by_cases here : eva = op
    · have under : (Mark.op eva loops).under op = true :=
        Mark.under_iff.mpr (here ▸ List.suffix_rfl)
      simp [under]
    · simp [here]
  | enter => simp
  | charge => simp
  | row => simp
  | compute => simp
  | leave => simp

theorem Evaluator.Evaluated.opLoops (evaluated : ev.Evaluated state tree t) (op_node : ev.IsOp op) :
    Analysis.opLoops op t.log = visits ev op := by
  obtain ⟨info, cs, ops, found, kind⟩ := op_node.found
  rw [opLoops_eq, evaluated.marks, ← markLoops_under, filter_skeleton op (.mk info cs) found]
  generalize visits ev op = outer
  induction outer with
  | nil => rfl
  | cons loops outer ih =>
    rw [List.flatMap_cons, markLoops_append, ih, skeleton, kind]
    simp [markLoops]

end Log

section Nest

variable {entries : List (NodePtr × Descriptor)}

theorem suffix_of_nest (member : u ∈ nest entries v) :
    v <:+ u ∧ u.length = v.length + entries.length := by
  induction entries generalizing v with
  | nil =>
    cases List.mem_singleton.mp member
    exact ⟨List.suffix_rfl, rfl⟩
  | cons entry entries ih =>
    obtain ⟨i, _, member⟩ := List.mem_flatMap.mp member
    obtain ⟨after, length⟩ := ih member
    refine ⟨(List.suffix_cons _ v).trans after, ?_⟩
    rw [length, List.length_cons, List.length_cons]
    omega

theorem eq_of_sameIndices (in_u : u ∈ nest entries v) (in_w : w ∈ nest entries v)
    (same : ∀ entry ∈ entries, SameIndices [entry.2.name_] u w) : u = w := by
  induction entries generalizing v with
  | nil => exact (List.mem_singleton.mp in_u).trans (List.mem_singleton.mp in_w).symm
  | cons entry entries ih =>
    obtain ⟨i, _, at_u⟩ := List.mem_flatMap.mp in_u
    obtain ⟨j, _, at_w⟩ := List.mem_flatMap.mp in_w
    obtain ⟨⟨front, whole_u⟩, length_u⟩ := suffix_of_nest at_u
    obtain ⟨⟨front', whole_w⟩, length_w⟩ := suffix_of_nest at_w
    have lengths : front.length = front'.length := by
      have split_u := congrArg List.length whole_u
      have split_w := congrArg List.length whole_w
      rw [List.length_append] at split_u split_w
      rw [List.length_cons] at split_u split_w length_u length_w
      omega
    have here := same entry List.mem_cons_self
    rw [← whole_u, ← whole_w] at here
    have inner := (List.forall₂_drop front.length here)
    rw [List.drop_left, lengths, List.drop_left] at inner
    have index : (loopState entry.1 entry.2 (loopEnd entry.1 entry.2 v) i).index =
        (loopState entry.1 entry.2 (loopEnd entry.1 entry.2 v) j).index :=
      (List.forall₂_cons.mp inner).1 (List.mem_singleton_self _)
    have equal : i = j := by
      simp only [loopState] at index
      omega
    subst equal
    exact ih at_u at_w fun entry' member => same entry' (List.mem_cons_of_mem entry member)

theorem nodup_nest (entries : List (NodePtr × Descriptor)) (v : List LoopState) :
    (nest entries v).Nodup := by
  induction entries generalizing v with
  | nil => exact List.nodup_singleton v
  | cons entry entries ih =>
    rw [nest, List.nodup_flatMap]
    refine ⟨fun i _ => ih _, (List.nodup_range).imp fun {i j} apart => ?_⟩
    intro u at_i at_j
    obtain ⟨⟨front, whole_i⟩, length_i⟩ := suffix_of_nest at_i
    obtain ⟨⟨front', whole_j⟩, length_j⟩ := suffix_of_nest at_j
    have tails := (List.append_inj' (whole_i.trans whole_j.symm) rfl).2
    have index := congrArg LoopState.index (List.cons.inj tails).1
    simp only [loopState] at index
    exact apart (by omega)

end Nest

section Points

variable {ctx : PerfContext}

theorem computes_iff (along : ∀ dim_name, OffsetsAlong ctx dim_name op)
    (proper : ctx.ev.ProperLoops) (distinct : ctx.ev.DistinctDims) (found : (ctx.ev.root_.get? op).isSome)
    (visited : u ∈ visits ctx.ev op) :
    ctx.ev.Computes op p u ↔ ∀ dim_name ∈ ctx.ev.opDims op,
      LoopNest.Covers ctx dim_name (ctx.ev.remaining dim_name op []) u (p dim_name) := by
  refine forall₂_congr fun dim_name _ => ?_
  rw [globalIndex_eq (along dim_name) proper.startsAtZero found visited, executed_eq distinct found]
  exact Iff.rfl

theorem remaining_of_looped (leaves : ev.LeafOps) (op_node : ev.IsOp op) {dim_name : String}
    (looped : dim_name ∈ ev.opDims op) : ev.remaining dim_name [] op ≠ [] := by
  have split := @opNests_split ev [] op leaves (by rw [List.append_nil]; exact op_node.1)
  rw [List.append_nil] at split
  rw [Evaluator.opDims, split] at looped
  intro none
  exact ofDim_eq_nil.mp (List.map_eq_nil_iff.mp none) looped

theorem covers_root (accepted : ctx.ev.Accepted) (op_node : ctx.ev.IsOp op) {dim_name : String}
    (looped : dim_name ∈ ctx.ev.opDims op) (x : Int) :
    LoopNest.Covers ctx dim_name (ctx.ev.remaining dim_name [] op) [] x ↔
      0 ≤ x ∧ x < ctx.ev.workloads_.factorized_bound dim_name := by
  have length : block (ctx.ev.remaining dim_name [] op) (isLast [] dim_name) =
      ctx.ev.workloads_.factorized_bound dim_name :=
    extent_remaining_root accepted op_node (remaining_of_looped accepted.leaves op_node looped)
  rw [LoopNest.Covers, length, skewOf_nil, Int.zero_add]

theorem computed_by_one (along : ∀ dim_name, OffsetsAlong ctx dim_name op) (proper : ctx.ev.ProperLoops)
    (distinct : ctx.ev.DistinctDims) (leaves : ctx.ev.LeafOps) (found : (ctx.ev.root_.get? op).isSome)
    (reached : ctx.ev.Reached op) (at_u : u ∈ visits ctx.ev op) (at_w : w ∈ visits ctx.ev op)
    (by_u : ctx.ev.Computes op p u) (by_w : ctx.ev.Computes op p w) : u = w := by
  have nested := visits_eq_nest leaves op found reached
  apply eq_of_sameIndices (nested ▸ at_u) (nested ▸ at_w)
  intro entry member
  have looped : entry.2.name_ ∈ ctx.ev.opDims op := by
    have above : entry.2 ∈ (ctx.ev.tileNests op).flatten :=
      map_snd_pathLoops op ▸ List.mem_map_of_mem member
    rw [Evaluator.opDims, Evaluator.opNests, List.flatten_append]
    exact List.mem_map_of_mem (List.mem_append_left _ above)
  obtain ⟨low_u, high_u⟩ := (computes_iff along proper distinct found at_u).mp by_u _ looped
  obtain ⟨low_w, high_w⟩ := (computes_iff along proper distinct found at_w).mp by_w _ looped
  rcases distinguished_visits proper distinct op [] u w (along entry.2.name_) found at_u at_w with
    ⟨same, _⟩ | before | after
  · exact same
  · omega
  · omega

theorem exists_computes_iff (along : ∀ dim_name, OffsetsAlong ctx dim_name op)
    (accepted : ctx.ev.Accepted) (proper : ctx.ev.ProperLoops) (distinct : ctx.ev.DistinctDims)
    (op_node : ctx.ev.IsOp op) (reached : ctx.ev.Reached op) :
    (∃ u ∈ visits ctx.ev op, ctx.ev.Computes op p u) ↔ ctx.ev.InSpace op p := by
  constructor
  · intro some dim_name looped
    obtain ⟨u, visited, computes⟩ := some
    have inside := (computes_iff along proper distinct op_node.1 visited).mp computes dim_name looped
    have cell := cellIn_visits proper distinct op [] u (along dim_name) op_node.1 visited
    exact (covers_root accepted op_node looped _).mp (cell.covers inside)
  · intro inside
    obtain ⟨u, visited, _, covers⟩ := @exists_visit ctx [] [] (ctx.ev.opDims op) p proper
      distinct accepted.leaves (List.mem_singleton_self []) op (fun _ => [])
      (by rw [List.append_nil]; exact op_node.1) (by rw [List.append_nil]; exact reached)
      (fun dim_name _ => by
        rw [List.append_nil]
        exact along dim_name)
      (fun dim_name looped => (covers_root accepted op_node looped _).mpr (inside dim_name looped))
    rw [List.append_nil] at visited
    refine ⟨u, visited, (computes_iff along proper distinct op_node.1 visited).mpr fun dim_name looped => ?_⟩
    have here := covers dim_name looped
    rwa [List.append_nil] at here

end Points

theorem visits_nodup (leaves : ev.LeafOps) (found : (ev.root_.get? op).isSome)
    (reached : ev.Reached op) : (visits ev op).Nodup := by
  rw [visits_eq_nest leaves op found reached]
  exact nodup_nest (ev.pathLoops op) []

/-- The run with every offset taken on the way down to the Op. -/
def towards (ev : Evaluator) (op : NodePtr) : PerfContext where
  ev := ev
  offsets := {
    dim_offset_ node dim_name := some (ev.indexStep op node dim_name)
    last_dim_offset_ _ _ := none }
  leaf_vec_ := []

theorem offsetsAlong_towards (ev : Evaluator) (op : NodePtr) (dim_name : String) :
    OffsetsAlong (towards ev op) dim_name op := by
  constructor
  intro q node path _
  subst path
  exact ev.indexStep_eq node q dim_name

/-- In a completed run every point of the iteration space of an Op is computed exactly once, and no
    other point is computed. -/
theorem computed_once (run : ev.evaluate ev.construct = .ok state) (proper : ev.ProperLoops)
    (distinct : ev.DistinctDims) (op_node : ev.IsOp op) (reached : ev.Reached op) (p : String → Int) :
    ev.timesComputed op state.log p = if ev.InSpace op p then 1 else 0 := by
  obtain ⟨tree, t, evaluated⟩ := Evaluator.evaluate_eq_ok run
  have accepted := evaluated.accepted
  have along := offsetsAlong_towards ev op
  have one : ∀ u ∈ visits ev op, ∀ w ∈ visits ev op, ev.Computes op p u → ev.Computes op p w → u = w :=
    fun u at_u w at_w => @computed_by_one op p u w (towards ev op) along proper distinct accepted.leaves
      op_node.1 reached at_u at_w
  rw [Evaluator.timesComputed, evaluated.log, evaluated.opLoops op_node,
    ListOrder.countP_of_unique (visits_nodup accepted.leaves op_node.1 reached) one]
  exact if_congr (@exists_computes_iff op p (towards ev op) along accepted proper distinct op_node reached)
    rfl rfl

end TileExp.Analysis
