import Latias.Traffic.Refetches
import Latias.Visits.OpOrder

/-! When a run has computed an element of a tensor before anything reads it. -/

namespace TileExp.Analysis

open Checked LoopNest TailRadix

/-- Every visit of the producer that computes an element over `dims` comes before every visit of the
    consumer that computes with the same element. -/
def Evaluator.ProducedFirst (ev : Evaluator) (log : List Event) (producer consumer : NodePtr)
    (dims : List String) : Prop :=
  ∀ p p' u u', (∀ dim_name ∈ dims, p dim_name = p' dim_name) → u ∈ opLoops producer log →
    u' ∈ opLoops consumer log → ev.Computes producer p u → ev.Computes consumer p' u' →
      Before log (producer, u) (consumer, u')

variable {ev : Evaluator} {ctx : PerfContext} {state : EvalState} {tree : EvaTree} {t : Tally}
  {node : NodePtr} {q q' : Rose.Address} {i j : Nat} {dims : List String} {dim_name : String}
  {v w u u' : List LoopState} {p p' : String → Int} {entries : List (NodePtr × Descriptor)}

namespace LoopNest

section Indices

theorem index_of_nest (perfect : ∀ entry ∈ entries, Perfect entry.2) (member : u ∈ nest entries v)
    {a : LoopState} (inside : a ∈ u) : a ∈ v ∨ ∃ entry ∈ entries, a.name_ = entry.2.name_ ∧
      0 ≤ a.index ∧ a.index < entry.2.end_ := by
  induction entries generalizing v with
  | nil => exact Or.inl (List.mem_singleton.mp member ▸ inside)
  | cons entry entries ih =>
    obtain ⟨i, bound, member⟩ := List.mem_flatMap.mp member
    have head := perfect entry List.mem_cons_self
    rw [loopEnd_of_perfect head, head.start, List.mem_range] at bound
    rcases ih (fun e inner => perfect e (List.mem_cons_of_mem entry inner)) member with here | later
    · rcases List.mem_cons.mp here with rfl | outer
      · right
        refine ⟨entry, List.mem_cons_self, rfl, ?_, ?_⟩
        · simp only [loopState, head.start]
          omega
        · simp only [loopState, head.start]
          omega
      · exact Or.inl outer
    · obtain ⟨e, inner, range⟩ := later
      exact Or.inr ⟨e, List.mem_cons_of_mem entry inner, range⟩

theorem sameIndices_of_zero (keys : v.map LoopState.key = w.map LoopState.key)
    (in_v : ∀ a ∈ v, a.name_ = dim_name → a.index = 0) (in_w : ∀ a ∈ w, a.name_ = dim_name → a.index = 0) :
    SameIndices [dim_name] v w := by
  induction v generalizing w with
  | nil =>
    cases w with
    | nil => exact List.Forall₂.nil
    | cons b w => cases keys
  | cons a v ih =>
    cases w with
    | nil => cases keys
    | cons b w =>
      obtain ⟨head, tail⟩ := List.cons.inj keys
      have names : a.name_ = b.name_ := congrArg Prod.snd head
      apply List.Forall₂.cons
      · intro own
        have name := List.mem_singleton.mp own
        rw [in_v a List.mem_cons_self name, in_w b List.mem_cons_self (names ▸ name)]
      · exact ih tail (fun c member => in_v c (List.mem_cons_of_mem a member))
          fun c member => in_w c (List.mem_cons_of_mem b member)

def zeros : List (NodePtr × Descriptor) → List LoopState → List LoopState
  | [], v => v
  | entry :: rest, v => zeros rest (loopState entry.1 entry.2 (loopEnd entry.1 entry.2 v) 0 :: v)

theorem zeros_mem (perfect : ∀ entry ∈ entries, Perfect entry.2) (v : List LoopState) :
    zeros entries v ∈ nest entries v := by
  induction entries generalizing v with
  | nil => exact List.mem_singleton_self v
  | cons entry entries ih =>
    have head := perfect entry List.mem_cons_self
    have some : 0 < (loopEnd entry.1 entry.2 v - entry.2.start).toNat := by
      rw [loopEnd_of_perfect head, head.start]
      have positive := head.positive
      omega
    exact List.mem_flatMap.mpr ⟨0, List.mem_range.mpr some,
      ih (fun e inner => perfect e (List.mem_cons_of_mem entry inner)) _⟩

theorem sameIndices_zeros (same : SameIndices dims v w) :
    SameIndices dims (zeros entries v) (zeros entries w) := by
  induction entries generalizing v w with
  | nil => exact same
  | cons entry entries ih => exact ih (List.Forall₂.cons (fun _ => rfl) same)

theorem exists_other_iteration (perfect : ∀ entry ∈ entries, Perfect entry.2)
    {entry : NodePtr × Descriptor} (member : entry ∈ entries) (outside : entry.2.name_ ∉ dims)
    (more : 1 < entry.2.end_) :
    ∃ v ∈ nest entries [], ∃ w ∈ nest entries [], v ≠ w ∧ SameIndices dims v w := by
  obtain ⟨a, b, rfl⟩ := List.append_of_mem member
  have outer : ∀ e ∈ a, Perfect e.2 := fun e inside => perfect e (List.mem_append_left _ inside)
  have inner : ∀ e ∈ b, Perfect e.2 := fun e inside =>
    perfect e (List.mem_append_right _ (List.mem_cons_of_mem entry inside))
  have here := perfect entry (List.mem_append_right _ List.mem_cons_self)
  have step (k : Nat) (bound : k < 2) :
      zeros b (loopState entry.1 entry.2 (loopEnd entry.1 entry.2 (zeros a [])) k :: zeros a []) ∈
        nest (a ++ entry :: b) [] := by
    rw [nest_append]
    refine List.mem_flatMap.mpr ⟨zeros a [], zeros_mem outer [], ?_⟩
    refine List.mem_flatMap.mpr ⟨k, ?_, zeros_mem inner _⟩
    rw [loopEnd_of_perfect here, here.start, List.mem_range]
    omega
  refine ⟨_, step 0 (by omega), _, step 1 (by omega), ?_, ?_⟩
  · intro equal
    obtain ⟨⟨front, whole⟩, length⟩ := suffix_of_nest (zeros_mem inner
      (loopState entry.1 entry.2 (loopEnd entry.1 entry.2 (zeros a [])) 0 :: zeros a []))
    obtain ⟨⟨front', whole'⟩, length'⟩ := suffix_of_nest (zeros_mem inner
      (loopState entry.1 entry.2 (loopEnd entry.1 entry.2 (zeros a [])) 1 :: zeros a []))
    have tails := (List.append_inj' (whole.trans (equal.trans whole'.symm)) rfl).2
    have index := congrArg LoopState.index (List.cons.inj tails).1
    simp only [loopState] at index
    omega
  · apply sameIndices_zeros
    apply List.Forall₂.cons
    · exact fun inside => absurd inside outside
    · exact sameIndices_zeros List.Forall₂.nil

end Indices

end LoopNest

section Shared

theorem Evaluator.PerfectLoops.bound_of_looped (perfect : ev.PerfectLoops) (accepted : ev.Accepted)
    (op_node : ev.IsOp (q ++ node)) (looped : dim_name ∈ ev.opDims (q ++ node)) :
    ev.workloads_.factorized_bound dim_name =
      weight (digits dim_name (ev.tileNests node).flatten) * weight (ev.remaining dim_name node q) := by
  rw [← extent_remaining_root accepted op_node (remaining_of_looped accepted.leaves op_node looped),
    perfect.extent_eq, Evaluator.remaining, loopsBelow_root accepted.leaves op_node.1, digits_append,
    weight_append, Evaluator.remaining]

theorem looped_of_shared (leaves : ev.LeafOps) (op_node : ev.IsOp (q ++ node))
    {entry : NodePtr × Descriptor} (member : entry ∈ ev.pathLoops node) :
    entry.2.name_ ∈ ev.opDims (q ++ node) := by
  have above : entry.2 ∈ (ev.tileNests node).flatten :=
    map_snd_pathLoops node ▸ List.mem_map_of_mem member
  rw [Evaluator.opDims, opNests_split leaves op_node.1]
  exact List.mem_map_of_mem (List.mem_append_left _ above)

/-- Two Ops below siblings divide the part of a dimension that a shared iteration covers alike. -/
theorem Evaluator.PerfectLoops.weight_sibling (perfect : ev.PerfectLoops) (accepted : ev.Accepted)
    (first : ev.IsOp (q ++ i :: node)) (second : ev.IsOp (q' ++ j :: node))
    (looped : dim_name ∈ ev.opDims (q ++ i :: node)) (looped' : dim_name ∈ ev.opDims (q' ++ j :: node)) :
    weight (ev.remaining dim_name (i :: node) q) = weight (ev.remaining dim_name (j :: node) q') := by
  have same := (perfect.bound_of_looped accepted first looped).symm.trans
    (perfect.bound_of_looped accepted second looped')
  have above : ev.tileNests (i :: node) = ev.tileNests (j :: node) := rfl
  rw [above] at same
  have positive : 1 ≤ weight (digits dim_name (ev.tileNests (j :: node)).flatten) := by
    apply weight_pos
    apply digits_proper
    intro loop member
    obtain ⟨ptr, own⟩ := mem_tileNests (j :: node) member
    exact perfect.proper.at own
  exact Int.eq_of_mul_eq_mul_left (by omega) same

theorem visitsIn_unique (at_v : v ∈ visits ev node)
    (member : u ∈ visits ev (q ++ node)) (inside : v <:+ u) : u ∈ visitsIn ev node v q := by
  rw [visits_eq_visitsIn] at member
  obtain ⟨w, at_w, member⟩ := List.mem_flatMap.mp member
  have lengths : v.length = w.length := by
    rw [length_visits node v at_v, length_visits node w at_w]
  obtain ⟨front, rfl⟩ := inside
  obtain ⟨front', whole⟩ := suffix_of_visitsIn q member
  have same := (List.append_inj' whole lengths.symm).2
  exact same ▸ member

structure SharedSetting (ctx : PerfContext) (node : NodePtr) (q q' : Rose.Address) (i j : Nat) : Prop where
  setting : RangeSetting ctx
  perfect : ctx.ev.PerfectLoops
  order : i < j
  first : ctx.ev.IsOp (q ++ i :: node)
  second : ctx.ev.IsOp (q' ++ j :: node)
  reached_first : ctx.ev.Reached (q ++ i :: node)
  reached_second : ctx.ev.Reached (q' ++ j :: node)

namespace SharedSetting

theorem reached_above {r : Rose.Address} (reached : ev.Reached (r ++ node)) : ev.Reached node := by
  induction r with
  | nil => exact reached
  | cons k r ih => exact ih reached.2

variable (shared : SharedSetting ctx node q q' i j)

include shared

theorem visits_eq : visits ctx.ev (i :: node) = visits ctx.ev (j :: node) :=
  visits_sibling (Nat.le_of_lt shared.order) (reached_above shared.reached_second)

theorem visits_nest : visits ctx.ev (j :: node) = nest (ctx.ev.pathLoops (j :: node)) [] :=
  visits_eq_nest shared.setting.accepted.leaves (j :: node)
    (Evaluator.isSome_get?_above shared.second.1) (reached_above shared.reached_second)

theorem perfect_entries : ∀ entry ∈ ctx.ev.pathLoops (j :: node), Perfect entry.2 :=
  fun entry member => shared.perfect.above (j :: node) entry.2
    (map_snd_pathLoops (j :: node) ▸ List.mem_map_of_mem member)

/-- Visits of the two Ops that share an element are in the same shared iteration, if the shared loops
    over other dimensions run once. -/
theorem same_iteration (once : ∀ entry ∈ ctx.ev.pathLoops (j :: node), entry.2.name_ ∉ dims → entry.2.end_ = 1)
    (at_v : v ∈ visits ctx.ev (j :: node)) (at_w : w ∈ visits ctx.ev (j :: node))
    (in_v : u ∈ visitsIn ctx.ev (i :: node) v q) (in_w : u' ∈ visitsIn ctx.ev (j :: node) w q')
    (computes : ctx.ev.Computes (q ++ i :: node) p u) (computes' : ctx.ev.Computes (q' ++ j :: node) p' u')
    (agree : ∀ dim_name ∈ dims, p dim_name = p' dim_name) : v = w := by
  have proper := shared.perfect.proper
  have distinct := shared.setting.distinct
  have leaves := shared.setting.accepted.leaves
  have along (dim_name : String) := offsetsAlong_perfect shared.setting shared.perfect shared.first dim_name
  have along' (dim_name : String) := offsetsAlong_perfect shared.setting shared.perfect shared.second dim_name
  have visited : u ∈ visits ctx.ev (q ++ i :: node) := by
    rw [visits_eq_visitsIn, shared.visits_eq]
    exact List.mem_flatMap.mpr ⟨v, at_v, in_v⟩
  have visited' : u' ∈ visits ctx.ev (q' ++ j :: node) := by
    rw [visits_eq_visitsIn]
    exact List.mem_flatMap.mpr ⟨w, at_w, in_w⟩
  have found := Evaluator.isSome_get?_above shared.second.1
  apply eq_of_sameIndices (shared.visits_nest ▸ at_v) (shared.visits_nest ▸ at_w)
  intro entry member
  have looped : entry.2.name_ ∈ ctx.ev.opDims (q ++ i :: node) :=
    @looped_of_shared ctx.ev (i :: node) q leaves shared.first entry member
  have looped' : entry.2.name_ ∈ ctx.ev.opDims (q' ++ j :: node) :=
    looped_of_shared leaves shared.second member
  by_cases inside : entry.2.name_ ∈ dims
  · have here := (computes_iff along proper distinct shared.first.1 visited).mp computes _ looped
    have there := (computes_iff along' proper distinct shared.second.1 visited').mp computes' _ looped'
    have cell := @cellIn_below ctx (i :: node) entry.2.name_ v proper distinct
      (shared.visits_eq ▸ at_v) q [] u (along _) shared.first.1 visited (suffix_of_visitsIn q in_v)
    have cell' := @cellIn_below ctx (j :: node) entry.2.name_ w proper distinct at_w q' [] u'
      (along' _) shared.second.1 visited' (suffix_of_visitsIn q' in_w)
    obtain ⟨low, high⟩ := cell.covers here
    obtain ⟨low', high'⟩ := cell'.covers there
    rw [List.nil_append, shared.perfect.block_eq,
      shared.perfect.weight_sibling shared.setting.accepted shared.first shared.second looped looped'] at high
    rw [List.nil_append, shared.perfect.block_eq] at high'
    have element := agree _ inside
    rcases distinguished_visits proper distinct (j :: node) q' v w (along' _) found at_v at_w with
      ⟨same, _⟩ | before | after
    · exact same
    · rw [shared.perfect.block_eq] at before
      omega
    · rw [shared.perfect.block_eq] at after
      omega
  · have keys_v := (around_of_mem_visits (j :: node) found v at_v).keys
    have keys_w := (around_of_mem_visits (j :: node) found w at_w).keys
    have zero (x : List LoopState) (at_x : x ∈ visits ctx.ev (j :: node)) :
        ∀ a ∈ x, a.name_ = entry.2.name_ → a.index = 0 := by
      intro a own name
      rcases index_of_nest shared.perfect_entries (shared.visits_nest ▸ at_x) own with none | some
      · cases none
      · obtain ⟨other, within, same, low, high⟩ := some
        have one := once other within (by rw [← same, name]; exact inside)
        omega
    exact sameIndices_of_zero (keys_v.trans keys_w.symm) (zero v at_v) (zero w at_w)

theorem exists_first_point {r : Rose.Address} {k : Nat} (op_node : ctx.ev.IsOp (r ++ k :: node))
    (reached : ctx.ev.Reached (r ++ k :: node)) (at_v : v ∈ visits ctx.ev (k :: node)) :
    ∃ u ∈ visitsIn ctx.ev (k :: node) v r, u ∈ visits ctx.ev (r ++ k :: node) ∧
      ctx.ev.Computes (r ++ k :: node) (skewOf ctx v) u := by
  have proper := shared.perfect.proper
  have distinct := shared.setting.distinct
  have along (dim_name : String) := offsetsAlong_perfect shared.setting shared.perfect op_node dim_name
  obtain ⟨u, visited, inside, covers⟩ := @exists_visit ctx (k :: node) v (ctx.ev.opDims (r ++ k :: node))
    (skewOf ctx v) proper distinct shared.setting.accepted.leaves at_v r (fun _ => []) op_node.1 reached
    (fun dim_name _ => along dim_name)
    (fun dim_name _ => by
      have least := block_pos (proper.remaining dim_name (k :: node) ([] ++ r)) (isLast v dim_name)
      exact ⟨Int.le_refl _, by omega⟩)
  exact ⟨u, visitsIn_unique at_v visited inside, visited,
    (computes_iff along proper distinct op_node.1 visited).mpr covers⟩

end SharedSetting

end Shared

theorem shared_setting (evaluated : ev.Evaluated state tree t) (perfect : ev.PerfectLoops)
    (distinct : ev.DistinctDims) (order : i < j) (first : ev.IsOp (q ++ i :: node))
    (second : ev.IsOp (q' ++ j :: node)) (reached_first : ev.Reached (q ++ i :: node))
    (reached_second : ev.Reached (q' ++ j :: node)) :
    SharedSetting (tree.context ev state.leaf_vec_) node q q' i j :=
  ⟨⟨evaluated.accepted, distinct, evaluated.offsets⟩, perfect, order, first, second, reached_first,
    reached_second⟩

/-- A producer below an earlier child than the consumer has computed every element of a tensor before
    it is read exactly when the loops the two share run once in all dimensions that the tensor does not
    have. -/
theorem produced_first_iff (run : ev.evaluate ev.construct = .ok state) (perfect : ev.PerfectLoops)
    (distinct : ev.DistinctDims) (order : i < j) (producer : ev.IsOp (q ++ i :: node))
    (consumer : ev.IsOp (q' ++ j :: node)) (reached : ev.Reached (q ++ i :: node))
    (reached' : ev.Reached (q' ++ j :: node)) (name : String) :
    ev.ProducedFirst state.log (q ++ i :: node) (q' ++ j :: node) (ev.tensorDims name) ↔
      ∀ loop ∈ (ev.tileNests (j :: node)).flatten, loop.name_ ∉ ev.tensorDims name → loop.end_ = 1 := by
  obtain ⟨tree, t, evaluated⟩ := Evaluator.evaluate_eq_ok run
  have shared := shared_setting evaluated perfect distinct order producer consumer reached reached'
  have accepted := evaluated.accepted
  have members (op : NodePtr) (op_node : ev.IsOp op) : opLoops op state.log = visits ev op := by
    rw [evaluated.log, evaluated.opLoops op_node]
  have siblings : visits ev (i :: node) = visits ev (j :: node) := shared.visits_eq
  have nested : visits ev (j :: node) = nest (ev.pathLoops (j :: node)) [] := shared.visits_nest
  constructor
  · intro produced loop member outside
    by_contra more
    rw [← map_snd_pathLoops] at member
    obtain ⟨entry, inside, rfl⟩ := List.mem_map.mp member
    have positive := (shared.perfect_entries entry inside).positive
    obtain ⟨v, at_v, w, at_w, apart, same⟩ :=
      exists_other_iteration shared.perfect_entries inside outside (by omega)
    rw [← shared.visits_nest] at at_v at_w
    have agree : ∀ dim_name ∈ ev.tensorDims name, skewOf (tree.context ev state.leaf_vec_) v dim_name =
        skewOf (tree.context ev state.leaf_vec_) w dim_name := fun dim_name own =>
      (alike_visits own (j :: node) v w at_v at_w same).skew
    -- Of the two iterations one comes first: the consumer reads in it what the producer still computes
    -- in the other.
    have late (x y : List LoopState) (at_x : x ∈ visits ev (j :: node)) (at_y : y ∈ visits ev (j :: node))
        (agree : ∀ dim_name ∈ ev.tensorDims name, skewOf (tree.context ev state.leaf_vec_) x dim_name =
          skewOf (tree.context ev state.leaf_vec_) y dim_name) :
        ¬ ListOrder.Before (visits ev (j :: node)) y x := by
      intro earlier
      obtain ⟨u, in_x, at_u, computes⟩ := shared.exists_first_point producer reached (siblings ▸ at_x)
      obtain ⟨u', in_y, at_u', computes'⟩ := shared.exists_first_point consumer reached' at_y
      have forward := produced _ _ u u' agree (members _ producer ▸ at_u) (members _ consumer ▸ at_u')
        computes computes'
      rw [evaluated.log] at forward
      have backward := after_of_later order producer consumer in_x in_y evaluated earlier
      have different : (q ++ i :: node, u) ≠ (q' ++ j :: node, u') := by
        intro equal
        have ends := (List.append_inj' (show q ++ [i] ++ node = q' ++ [j] ++ node by
          simpa using (Prod.mk.inj equal).1) rfl).1
        have last := (List.append_inj' ends rfl).2
        cases last
        omega
      exact forward.asymm different (evaluated.count_le_one producer reached u)
        (evaluated.count_le_one consumer reached' u') backward
    rcases ListOrder.before_total at_v at_w apart with before | after
    · exact late w v at_w at_v (fun dim_name own => (agree dim_name own).symm) before
    · exact late v w at_v at_w agree after
  · intro once p p' u u' agree at_u at_u' computes computes'
    rw [members _ producer, visits_eq_visitsIn, siblings] at at_u
    rw [members _ consumer, visits_eq_visitsIn] at at_u'
    obtain ⟨v, at_v, in_v⟩ := List.mem_flatMap.mp at_u
    obtain ⟨w, at_w, in_w⟩ := List.mem_flatMap.mp at_u'
    have same : v = w := by
      apply shared.same_iteration (fun entry inside => ?_) at_v at_w in_v in_w computes computes' agree
      exact once entry.2 (map_snd_pathLoops (j :: node) ▸ List.mem_map_of_mem inside)
    rw [evaluated.log]
    exact before_of_same order producer consumer in_v in_w evaluated same at_v

theorem produced_first_iff_fused : ∃ state, fused.evaluate fused.construct = .ok state ∧
    fused.ProducedFirst state.log [0, 0, 0] [0, 1, 0] (fused.tensorDims "B") := by
  have completed : (fused.evaluate fused.construct).isOk = true := by
    decide +kernel
  obtain ⟨state, run⟩ := exists_of_isOk completed
  have first : fused.IsOp ([0] ++ 0 :: [0]) := ⟨by decide +kernel, by decide +kernel⟩
  have second : fused.IsOp ([0] ++ 1 :: [0]) := ⟨by decide +kernel, by decide +kernel⟩
  have iff := produced_first_iff run (by decide +kernel) (by decide +kernel) Nat.zero_lt_one first second
    (by decide +kernel) (by decide +kernel) "B"
  exact ⟨state, run, iff.mpr (by decide +kernel)⟩

end TileExp.Analysis
