import Latias.Analysis.Config
import Latias.Visits.Evaluation
import Latias.Visits.PathNest
import Latias.Visits.Restored

/-! What a visit finds when it starts, and that it leaves the traversal state as it found it. -/

namespace TileExp.Analysis

open Checked

def LoopState.key (loop : LoopState) : NodePtr × String := (loop.node, loop.name_)

def Evaluator.enclosing (ev : Evaluator) (node : NodePtr) : List (NodePtr × String) :=
  ((ev.pathLoops node).map fun entry => (entry.1, entry.2.name_)).reverse

def Evaluator.StartsAtZero (ev : Evaluator) : Prop :=
  ∀ node ∈ Rose.postorder [] ev.root_, ∀ loop ∈ ev.loopnests_ node, loop.start = 0

instance (ev : Evaluator) : Decidable ev.StartsAtZero :=
  inferInstanceAs (Decidable (∀ node ∈ Rose.postorder [] ev.root_, _))

namespace LoopNest

variable {ev : Evaluator} {ctx : PerfContext} {node ptr : NodePtr} {loops : List LoopState}
  {t t' : Tally}

/-- One iteration of each loop above the node, each of which starts at 0. -/
structure Around (ev : Evaluator) (node : NodePtr) (loops : List LoopState) : Prop where
  keys : loops.map LoopState.key = ev.enclosing node
  starts : ev.StartsAtZero → ∀ loop ∈ loops, loop.ori_start = 0

theorem keys_of_mem_iterations {dims : List Descriptor} {inner : List LoopState}
    (member : inner ∈ iterations node dims loops) : inner.map LoopState.key =
      (dims.map fun loop => (node, loop.name_)).reverse ++ loops.map LoopState.key := by
  induction dims generalizing loops with
  | nil =>
    cases List.mem_singleton.mp member
    rfl
  | cons dim rest ih =>
    obtain ⟨i, _, member⟩ := List.mem_flatMap.mp member
    rw [ih member]
    simp [LoopState.key, loopState]

theorem starts_of_mem_iterations {dims : List Descriptor} {inner : List LoopState}
    (own : ∀ loop ∈ dims, loop.start = 0) (outer : ∀ loop ∈ loops, loop.ori_start = 0)
    (member : inner ∈ iterations node dims loops) : ∀ loop ∈ inner, loop.ori_start = 0 := by
  induction dims generalizing loops with
  | nil =>
    cases List.mem_singleton.mp member
    exact outer
  | cons dim rest ih =>
    obtain ⟨i, _, member⟩ := List.mem_flatMap.mp member
    apply ih (fun loop inside => own loop (List.mem_cons_of_mem dim inside)) _ member
    intro loop inside
    rcases List.mem_cons.mp inside with rfl | earlier
    · exact own dim List.mem_cons_self
    · exact outer loop earlier

theorem Around.child_of_tile {inner : List LoopState} {i : Nat} (around : Around ev ptr loops)
    (tile : ev.get_type ptr = .Tile) (found : (ev.root_.get? ptr).isSome)
    (member : inner ∈ iterations ptr (ev.loopnests_ ptr) loops) : Around ev (i :: ptr) inner := by
  constructor
  · rw [keys_of_mem_iterations member, around.keys, Evaluator.enclosing, Evaluator.enclosing,
      Evaluator.pathLoops, if_pos tile]
    simp [Function.comp_def]
  · intro zero
    have here := InitAnalysis.mem_positions.mpr found
    exact starts_of_mem_iterations (zero ptr here) (around.starts zero) member

theorem Around.child_of_other {i : Nat} (around : Around ev ptr loops)
    (other : ev.get_type ptr ≠ .Tile) : Around ev (i :: ptr) loops := by
  refine ⟨?_, around.starts⟩
  rw [around.keys, Evaluator.enclosing, Evaluator.enclosing, Evaluator.pathLoops, if_neg other,
    List.append_nil]

theorem around_of_mem_skeleton (ptr : NodePtr) (sub : Node) (found : ev.root_.get? ptr = some sub) :
    ∀ outer, Around ev ptr outer → Mark.enter node loops ∈ skeleton ptr sub outer →
      Around ev node loops := by
  induction ptr, sub using Rose.position_induction₂
    (S := fun ptr i cs => ChildrenAt ev ptr i cs → ev.get_type ptr ≠ .Tile → ∀ outer,
      Around ev ptr outer → Mark.enter node loops ∈ scopeSkeleton ptr i cs outer →
        Around ev node loops)
    (T := fun ptr i cs => ChildrenAt ev ptr i cs → ∀ inner, (∀ i, Around ev (i :: ptr) inner) →
      Mark.enter node loops ∈ tileSkeleton ptr i cs inner → Around ev node loops) with
  | node ptr info cs scope tile =>
    intro outer around member
    have placed := childrenAt_zero found
    have kind_eq : ev.get_type ptr = info.kind.type_ := by
      rw [Evaluator.get_type, Evaluator.ori_node_of_get? found]
      rfl
    rw [skeleton, List.mem_append, List.mem_cons, List.mem_singleton] at member
    rcases member with (here | inside) | last
    · cases here
      exact around
    · obtain ⟨name_, level, mode, kind⟩ := info
      cases kind with
      | Op ops => cases List.mem_singleton.mp inside
      | Trans => cases inside
      | Scope type =>
        have other : ev.get_type ptr ≠ .Tile := by
          rw [kind_eq]
          intro same
          cases same
        exact scope placed other outer around inside
      | Tile type dims =>
        have dims_eq : ev.loopnests_ ptr = dims := by
          rw [Evaluator.loopnests_, Evaluator.ori_node_of_get? found]
          rfl
        rcases List.mem_append.mp inside with inside | compute
        · obtain ⟨inner, iteration, inside⟩ := List.mem_flatMap.mp inside
          rcases List.mem_append.mp inside with first | inside
          · unfold firstMarks at first
            split at first
            · simp at first
            · cases first
          · rcases List.mem_append.mp inside with children | row
            · apply tile placed inner _ children
              intro i
              exact around.child_of_tile kind_eq (by rw [found]; rfl) (dims_eq ▸ iteration)
            · cases List.mem_singleton.mp row
        · cases List.mem_singleton.mp compute
    · cases last
  | first_nil ptr i =>
    rename_i placed other outer around member
    cases member
  | first_cons ptr i c cs first rest =>
    rename_i placed other outer around member
    rcases List.mem_append.mp member with here | later
    · exact first placed.head outer (around.child_of_other other) here
    · exact rest placed.tail other outer around later
  | second_nil ptr i =>
    rename_i placed inner around member
    cases member
  | second_cons ptr i c cs first rest =>
    rename_i placed inner around member
    rcases List.mem_append.mp member with here | later
    · exact first placed.head inner (around i) here
    · split at later
      · cases later
      · exact rest placed.tail inner around later

def Entries (ctx : PerfContext) (t : Tally) : Prop :=
  ∀ node eva loops skew, Event.enter node eva loops skew ∈ t.log →
    eva = node ∧ (ctx.ev.DistinctTileDims → skew = skewOf ctx loops)

theorem Entries.later {events : List Event} (before : Entries ctx t)
    (log : t'.log = t.log ++ events)
    (others : ∀ node eva loops skew, Event.enter node eva loops skew ∉ events) : Entries ctx t' := by
  intro node eva loops skew member
  rw [log] at member
  rcases List.mem_append.mp member with earlier | later
  · exact before node eva loops skew earlier
  · exact absurd later (others node eva loops skew)

theorem Entries.same (before : Entries ctx t) (log : t'.log = t.log) : Entries ctx t' :=
  before.later (log.trans (List.append_nil _).symm) fun _ _ _ _ => List.not_mem_nil

theorem Entries.step (before : Entries ctx t) (step : Step ctx t t') : Entries ctx t' := by
  cases step with
  | enter ptr loops _ skew =>
    intro node eva at_loops at_skew member
    rcases List.mem_append.mp member with earlier | last
    · exact before node eva at_loops at_skew earlier
    · cases List.mem_singleton.mp last
      exact ⟨rfl, skew⟩
  | leave ptr => exact before.later rfl (by simp)
  | op ptr loops _ kind => exact before.later rfl (by simp)
  | trans call =>
    rw [transTally_eq_ok call]
    exact before.same rfl
  | clearRow => exact before.same rfl
  | pushLatency => exact before.same rfl
  | copyRow => exact before.same rfl
  | finishScope call =>
    unfold finishScope at call
    split at call
    · cases call
    · cases call
      exact before.same rfl
  | pushRow call =>
    obtain ⟨_, rfl⟩ := pushRow_eq_ok call
    exact before.later rfl (by simp)
  | @finishTile ptr _ _ call =>
    obtain ⟨latency, _, rfl⟩ := finishTile_eq_ok call
    split
    · exact before.later rfl (by simp)
    · exact before.later rfl (by simp)
  | charge skew call =>
    obtain ⟨ins, outs, tile, trans, entered⟩ := enterTile_eq_ok call
    rw [entered.result]
    exact before.later rfl (by simp)
  | clearSkew => exact before.same rfl
  | advanceSkew => exact before.same rfl
  | restoreSkew => exact before.same rfl

end LoopNest

open LoopNest

/-- A visit from any state leaves `dim_skew`, `vec_last_dim_`, every loop's start and all stacks as
    it found them, with its parent as the current node; and every visit of a run starts with
    `dim_skew` the sum of the current indices times the offsets over the loops around it. -/
theorem tile_visit_leaves_no_trace {ev : Evaluator} (distinct : ev.DistinctTileDims)
    (zero : ev.StartsAtZero) :
    (∀ ctx ptr sub s s', ctx.ev = ev → ev.root_.get? ptr = some sub →
      s.walk.current_node_ = ptr → PerfAnalysis.visit ctx ptr sub s = .ok s' →
        s'.tally.dim_skew = s.tally.dim_skew ∧ s'.walk = s.walk.moveTo (up ptr)) ∧
    ∀ tree leaf_vec_ s, tree.Idle ev → PerfAnalysis.run ev tree leaf_vec_ = .ok s →
      ∀ node eva loops skew, Event.enter node eva loops skew ∈ s.tally.log → eva = node ∧
        loops.map LoopState.key = ev.enclosing node ∧ ∀ dim_name,
          skew dim_name = ((loops.filter fun loop => loop.name_ = dim_name).map fun loop =>
            loop.index * (tree.dim_offset_ loop.node dim_name).getD 0).sum := by
  constructor
  · intro ctx ptr sub s s' same found here run
    subst same
    have restored := PerfAnalysis.visit_restored ptr sub found s s' here run
    exact ⟨restored.dim_skew distinct, restored.walk⟩
  · intro tree leaf_vec_ s idle run node eva loops skew member
    have around : Around ev node loops := by
      apply around_of_mem_skeleton [] ev.root_ rfl [] ⟨rfl, fun _ _ inside => by cases inside⟩
      rw [← run_marks idle run]
      exact List.mem_map_of_mem member
    rw [PerfAnalysis.run_eq idle] at run
    obtain ⟨t, visited, result⟩ := bind_eq_ok.mp run
    cases result
    have steps := (visit_taken [] ev.root_ rfl [] _ t (fun _ => rfl) visited).1
    have entries : Entries (tree.context ev leaf_vec_) t :=
      steps_preserve (fun t t' before step => before.step step) steps
        (fun _ _ _ _ member => by cases member)
    obtain ⟨same, skews⟩ := entries node eva loops skew member
    refine ⟨same, around.keys, fun dim_name => ?_⟩
    rw [skews distinct, skewOf]
    congr 1
    apply List.map_congr_left
    intro loop inside
    rw [around.starts zero loop (List.mem_of_mem_filter inside), Int.sub_zero]
    rfl

def nested : Evaluator :=
  Config.evaluator (Config.workloads [("copy", ⟨["A"], "B"⟩)] [("M", 5)] [("A", ["M"]), ("B", ["M"])])
    1 [("Main2L1", ⟨1, .HD, 1, 1⟩), ("L12Main", ⟨1, .HD, 1, 1⟩), ("L12Cube", ⟨1, .HD, 1, 1⟩)]
    (Config.tile .Temporal "Main" [Config.loop "M" 2 2]
      [Config.scope .Sequential
        [Config.tile .Temporal "L1" [Config.loop "M" 3 2]
          [Config.op "Cube" "copy" [Config.loop "M" 1 1]]]])

theorem tile_visit_leaves_no_trace_nested :
    ∃ state tree t, nested.Evaluated state tree t ∧ t.dim_skew = (fun _ => 0) ∧
      ∀ node eva loops skew, Event.enter node eva loops skew ∈ t.log → eva = node ∧
        loops.map LoopState.key = nested.enclosing node ∧ ∀ dim_name,
          skew dim_name = ((loops.filter fun loop => loop.name_ = dim_name).map fun loop =>
            loop.index * (tree.dim_offset_ loop.node dim_name).getD 0).sum := by
  have completed : (nested.evaluate nested.construct).isOk = true := by
    decide +kernel
  obtain ⟨state, run⟩ := exists_of_isOk completed
  obtain ⟨tree, t, evaluated⟩ := Evaluator.evaluate_eq_ok run
  have rules := @tile_visit_leaves_no_trace nested (by decide +kernel) (by decide +kernel)
  have visited := rules.1 _ [] nested.root_ _ _ rfl rfl rfl evaluated.perf
  have entries := rules.2 tree state.leaf_vec_ _ evaluated.idle evaluated.perf
  exact ⟨state, tree, t, evaluated, visited.1, entries⟩

end TileExp.Analysis
