import Latias.Again.Reinit
import Latias.Again.ReplayVisit
import Latias.Offsets.Chain

/-! Evaluating again with the same `Evaluator`. -/

namespace TileExp.Analysis

open Checked

variable {ev : Evaluator} {state : EvalState} {tree : EvaTree} {t : Tally} {node : NodePtr}

/-- A second `evaluate()` completes with the results of the first. -/
def Evaluator.Repeats (ev : Evaluator) (state : EvalState) : Prop :=
  ∃ state', ev.evaluate state = .ok state' ∧ state'.data_movements_ = state.data_movements_ ∧
    state'.latency_ = state.latency_

/-! What the first evaluation leaves. -/

theorem GetLoopCount.collected_fresh (accepted : ev.Accepted) (node : NodePtr)
    (found : (ev.root_.get? node).isSome) :
    GetLoopCount.collected ev (fun _ => []) node = GetLoopCount.handedDown ev node := by
  induction node with
  | nil =>
    rw [GetLoopCount.collected, GetLoopCount.handedDown_eq]
    rfl
  | cons i parent ih =>
    rw [GetLoopCount.collected, ih (Evaluator.isSome_get?_parent found),
      GetLoopCount.handedDown_eq ev (i :: parent), GetLoopCount.tileNests_of_found accepted found]
    rfl

theorem evaluate_counted (run : ev.evaluate ev.construct = .ok state) (accepted : ev.Accepted) :
    (∀ node ∈ Rose.preorder [] ev.root_,
      GetLoopCount.countCheck ev node (GetLoopCount.collected ev (fun _ => []) node) = .ok ()) ∧
    state.tree.inherit_loopnests_ =
      GetLoopCount.passed ev (fun _ => []) (Rose.preorder [] ev.root_) := by
  rw [Evaluator.evaluate, Evaluator.construct, Evaluator.reset_fresh] at run
  obtain ⟨_, counting, run⟩ := bind_eq_ok.mp run
  obtain ⟨inherited, count, result⟩ := bind_eq_ok.mp counting
  cases result
  obtain ⟨_, initialising, run⟩ := bind_eq_ok.mp run
  obtain ⟨⟨tree, leaf_vec_⟩, init, result⟩ := bind_eq_ok.mp initialising
  cases result
  obtain ⟨s, perf, result⟩ := bind_eq_ok.mp run
  cases result
  obtain ⟨checks, counted⟩ := (GetLoopCount.run_collected_iff accepted).mp count
  have kept : tree.inherit_loopnests_ = inherited.inherit_loopnests_ := by
    rw [InitAnalysis.run_keeps init]
  exact ⟨checks, kept.trans (congrArg EvaTree.inherit_loopnests_ counted)⟩

theorem rekept_reset (run : ev.evaluate ev.construct = .ok state) (accepted : ev.Accepted) :
    GetLoopCount.Rekept ev (ev.reset state.tree).inherit_loopnests_ := by
  intro node found
  rw [ev.reset_eq]
  simp only [EvaTree.cleared]
  split
  · rfl
  · rw [(evaluate_counted run accepted).2, GetLoopCount.passed,
      if_pos (GetLoopCount.mem_preorder_of_isSome found),
      GetLoopCount.collected_fresh accepted node found]

theorem initialised_lasts (evaluated : ev.Evaluated state tree t) :
    InitAnalysis.OffsetsInit ev tree.toEvaOffsets ∧ InitAnalysis.OwnLasts ev tree.toEvaOffsets := by
  have own : InitAnalysis.OwnDims ev (ev.counted tree.inherit_loopnests_).toEvaOffsets :=
    fun node name present => by cases present
  refine ⟨InitAnalysis.run_offsets own evaluated.initialised, ?_⟩
  obtain ⟨s₁, s₂, s₃, s₄, first, second, third, fourth, result, _⟩ :=
    InitAnalysis.run_eq_ok evaluated.initialised
  have offsets : tree.toEvaOffsets = s₂.toEvaOffsets := by
    rw [result]
    exact InitAnalysis.tensorPasses_offsets third fourth
  rw [offsets]
  exact InitAnalysis.offsetPasses_lasts (fun _ _ _ => rfl) first second

theorem exists_op_below (accepted : ev.Accepted) {offsets : EvaOffsets}
    (init : InitAnalysis.OffsetsInit ev offsets) (node : NodePtr)
    (found : (ev.root_.get? node).isSome) :
    ∀ dim_name ∈ ev.dims node, ∃ q, ev.IsOp (q ++ node) := by
  refine Evaluator.below_induction (fun node found below dim_name member => ?_) node found
  by_cases leaf : (ev.ori_node_ node).children = []
  · exact ⟨[], isOp_of_childless accepted found leaf member⟩
  · obtain ⟨i, q, carrier, _⟩ := InitAnalysis.exists_carrier_below init found leaf member
    have carried := (init.carries (q ++ node) dim_name).mp carrier.carries
    have apart : q ++ node ≠ node := LoopNest.ne_of_cons_suffix carrier.under
    obtain ⟨r, op⟩ := below (q ++ node) (List.suffix_append q node) apart carrier.found dim_name carried
    exact ⟨r ++ q, by rw [List.append_assoc]; exact op⟩

theorem found_of_runsTile (tile : ev.RunsTile node) : (ev.root_.get? node).isSome := by
  cases found : ev.root_.get? node with
  | none =>
    have loops := tile.2
    rw [Evaluator.loopnests_, Evaluator.ori_node_, found] at loops
    exact absurd rfl loops
  | some sub => rfl

theorem exists_op_of_runsTile (accepted : ev.Accepted) {offsets : EvaOffsets}
    (init : InitAnalysis.OffsetsInit ev offsets) (tile : ev.RunsTile node) :
    ∃ q, q ≠ [] ∧ ev.IsOp (q ++ node) := by
  obtain ⟨loop, member⟩ := List.exists_mem_of_ne_nil _ tile.2
  obtain ⟨q, op⟩ := exists_op_below accepted init node (found_of_runsTile tile) loop.name_
    (List.mem_map_of_mem member)
  refine ⟨q, ?_, op⟩
  rintro rfl
  have kind := op.2
  rw [List.nil_append, tile.1] at kind
  cases kind

theorem singleTiles_of_units (accepted : ev.Accepted) {offsets : EvaOffsets}
    (init : InitAnalysis.OffsetsInit ev offsets) (starts : ev.StartsAtZero) (units : ev.UnitTails)
    (deep : ev.Deep) : LoopNest.SingleTiles ev := by
  intro node tile loop member
  have found := found_of_runsTile tile
  refine ⟨starts node (InitAnalysis.mem_positions.mpr found) loop member, ?_⟩
  obtain ⟨q, long, op⟩ : ∃ q, 2 ≤ (q ++ node).length ∧ ev.IsOp (q ++ node) := by
    by_cases root : node = []
    · obtain ⟨other, inner, below⟩ := deep
      obtain ⟨q, some, op⟩ := exists_op_of_runsTile accepted init below
      have first := List.length_pos_of_ne_nil some
      have second := List.length_pos_of_ne_nil inner
      refine ⟨q ++ other, ?_, by rw [root, List.append_nil]; exact op⟩
      rw [root, List.append_nil, List.length_append]
      omega
    · obtain ⟨q, some, op⟩ := exists_op_of_runsTile accepted init tile
      have first := List.length_pos_of_ne_nil some
      have second := List.length_pos_of_ne_nil root
      exact ⟨q, by rw [List.length_append]; omega, op⟩
  refine (units (q ++ node) (InitAnalysis.mem_positions.mpr op.1) op.2 long loop ?_).1
  rw [opNests_split accepted.leaves op.1]
  exact List.mem_append_right _ (List.mem_append_left _ member)

/-! The second evaluation. -/

theorem cleared_idle {nodes : List NodePtr} (idle : tree.Idle ev) :
    (tree.cleared nodes).Idle ev := by
  have first : tree.ori_start_ = fun _ => [] := congrArg EvaStacks.ori_start_ idle
  have second : tree.current_start_ = fun _ => [] := congrArg EvaStacks.current_start_ idle
  have same : { tree.toEvaStacks with ori_start_ := fun _ => [], current_start_ := fun _ => [] } =
      tree.toEvaStacks := by
    rw [← second]
    nth_rewrite 1 [second]
    rw [← first]
  rw [EvaTree.Idle, ← idle, ← same]
  simp only [EvaTree.cleared, first, second, ite_self]

/-- The tree on which `PerfAnalysis` runs again: `tree` is the one it ran on before. -/
def Evaluator.reinitialised (ev : Evaluator) (used tree : EvaTree)
    (inherit_loopnests_ : GetLoopCount.Inherit) : EvaTree :=
  { ev.reset used with
    inherit_loopnests_
    toEvaTensors := tree.toEvaTensors
    toEvaOffsets := tree.toEvaOffsets }

theorem reinit (evaluated : ev.Evaluated state tree t) (inherit_loopnests_ : GetLoopCount.Inherit) :
    InitAnalysis.run ev { ev.reset state.tree with inherit_loopnests_ } =
      .ok (ev.reinitialised state.tree tree inherit_loopnests_, state.leaf_vec_) := by
  obtain ⟨init, lasts⟩ := initialised_lasts evaluated
  have after : state.tree = Evaluator.treeAfter tree ⟨(PerfAnalysis.initial tree).walk, t⟩ := by
    rw [evaluated.result]
  have few := LoopNest.visit_noNewTensors [] ev.root_ rfl evaluated.visited
  have own : InitAnalysis.OwnDims ev (ev.counted tree.inherit_loopnests_).toEvaOffsets :=
    fun node name present => by cases present
  rw [Evaluator.reinitialised, ev.reset_eq, after]
  refine InitAnalysis.run_again evaluated.initialised
    (Evaluator.Evaluated.noTensors ev tree.inherit_loopnests_) own (fun _ _ _ => rfl) ?_ ?_ ?_ ?_
  · intro node name present
    simp only [EvaTree.cleared, Evaluator.treeAfter] at present
    split at present
    · cases present
    · exact (init.carries node name).mp present
  · intro node name absent
    simp only [EvaTree.cleared, Evaluator.treeAfter]
    split
    · rfl
    · exact lasts node name absent
  · intro node name present
    simp only [EvaTree.cleared, Evaluator.treeAfter] at present
    split at present
    · exact absurd present (AList.notMem_empty name)
    · exact (few node name).1 present
  · intro node name present
    simp only [EvaTree.cleared, Evaluator.treeAfter] at present
    split at present
    · exact absurd present (AList.notMem_empty name)
    · exact (few node name).2 present

theorem reinitialised_idle (evaluated : ev.Evaluated state tree t)
    (inherit_loopnests_ : GetLoopCount.Inherit) :
    (ev.reinitialised state.tree tree inherit_loopnests_).Idle ev := by
  have idle : state.tree.Idle ev := by
    rw [evaluated.result]
    exact evaluated.idle
  have cleared := @cleared_idle ev state.tree ev.resetNodes idle
  rw [← ev.reset_eq] at cleared
  exact cleared

theorem reinitialised_agree (evaluated : ev.Evaluated state tree t)
    (inherit_loopnests_ : GetLoopCount.Inherit) : LoopNest.Agree ev (PerfAnalysis.initial tree).tally
      (PerfAnalysis.initial (ev.reinitialised state.tree tree inherit_loopnests_)).tally := by
  refine ⟨rfl, rfl, rfl, fun q scope => ?_⟩
  rw [← LoopNest.visit_scopes [] ev.root_ rfl evaluated.visited scope, Evaluator.reinitialised,
    ev.reset_eq, evaluated.result]
  rfl

theorem repeats_of_units (run : ev.evaluate ev.construct = .ok state) (starts : ev.StartsAtZero)
    (units : ev.UnitTails) : ev.Repeats state := by
  obtain ⟨tree, t, evaluated⟩ := Evaluator.evaluate_eq_ok run
  have accepted := evaluated.accepted
  have rekept := rekept_reset run accepted
  have checks : ∀ node ∈ Rose.preorder [] ev.root_, GetLoopCount.countCheck ev node
      (GetLoopCount.collected ev (ev.reset state.tree).inherit_loopnests_ node) = .ok () :=
    fun node member => GetLoopCount.countCheck_of_units accepted units rekept
      (GetLoopCount.isSome_get?_of_mem member) ((evaluate_counted run accepted).1 node member)
  have recount := (GetLoopCount.run_collected_iff accepted).mpr ⟨checks, rfl⟩
  generalize GetLoopCount.passed ev (ev.reset state.tree).inherit_loopnests_
    (Rose.preorder [] ev.root_) = inherit_loopnests_ at recount
  have again := reinit evaluated inherit_loopnests_
  have idle := reinitialised_idle evaluated inherit_loopnests_
  have agree := reinitialised_agree evaluated inherit_loopnests_
  have single : ev.Deep → LoopNest.SingleTiles ev := fun deep =>
    singleTiles_of_units accepted (initialised_lasts evaluated).1 starts units deep
  have process (q : NodePtr) : (PerfAnalysis.initial (ev.reinitialised state.tree tree
      inherit_loopnests_)).tally.process_latency_ q = t.process_latency_ q := by
    rw [Evaluator.reinitialised, ev.reset_eq, evaluated.result]
    rfl
  have rows : (PerfAnalysis.initial (ev.reinitialised state.tree tree
      inherit_loopnests_)).tally.latency_vec_ [] = (PerfAnalysis.initial tree).tally.latency_vec_ [] := by
    have fresh : (PerfAnalysis.initial tree).tally.latency_vec_ [] = [] := by
      rw [PerfAnalysis.initial, evaluated.latencies]
      rfl
    have cleared : (state.tree.cleared ev.resetNodes).latency_vec_ [] = [] := by
      have root : [] ∈ ev.resetNodes := List.mem_cons_self
      simp only [EvaTree.cleared, if_pos root]
    rw [fresh, Evaluator.reinitialised, ev.reset_eq]
    exact cleared
  obtain ⟨u, visited, replayed⟩ := @LoopNest.visit_again (tree.context ev state.leaf_vec_) single [] ev.root_
    rfl [] _ t _ (fun _ outer member => by cases member) evaluated.visited agree (fun _ => rows)
      (fun q _ _ => process q)
  have perf : PerfAnalysis.run ev (ev.reinitialised state.tree tree inherit_loopnests_)
      state.leaf_vec_ = .ok ⟨(PerfAnalysis.initial
        (ev.reinitialised state.tree tree inherit_loopnests_)).walk, u⟩ := by
    rw [PerfAnalysis.run_eq idle]
    exact bind_eq_ok.mpr ⟨u, visited, rfl⟩
  have second : ev.evaluate state = .ok
      ⟨Evaluator.treeAfter (ev.reinitialised state.tree tree inherit_loopnests_)
        ⟨(PerfAnalysis.initial (ev.reinitialised state.tree tree inherit_loopnests_)).walk, u⟩,
        state.leaf_vec_, u.data_movements_, u.process_latency_ [], u.log⟩ := by
    rw [Evaluator.evaluate, Evaluator.get_loop_count, recount, ok_bind, ok_bind,
      Evaluator.init_analysis, again, ok_bind, ok_bind, Evaluator.analysis_latias, perf]
    rfl
  refine ⟨_, second, ?_⟩
  rw [evaluated.data_movements_, evaluated.latency_]
  exact ⟨replayed.agree.data_movements_, replayed.process⟩

theorem units_of_repeats (run : ev.evaluate ev.construct = .ok state) (positive : ev.PositiveTails)
    {state' : EvalState} (again : ev.evaluate state = .ok state') : ev.UnitTails := by
  obtain ⟨tree, t, evaluated⟩ := Evaluator.evaluate_eq_ok run
  have accepted := evaluated.accepted
  obtain ⟨_, counting, _⟩ := bind_eq_ok.mp again
  obtain ⟨_, count, _⟩ := bind_eq_ok.mp counting
  obtain ⟨checks, _⟩ := (GetLoopCount.run_collected_iff accepted).mp count
  intro op member kind deep
  have found := InitAnalysis.mem_positions.mp member
  exact GetLoopCount.units_of_countCheck accepted positive (rekept_reset run accepted) ⟨found, kind⟩
    deep (checks op (GetLoopCount.mem_preorder_of_isSome found))

/-- A second evaluation repeats the first if every loop over an Op two levels or more below the root
    has a single last iteration; where every loop runs at least once, only then. -/
theorem repeats_iff_unitTails (run : ev.evaluate ev.construct = .ok state)
    (starts : ev.StartsAtZero) : (ev.UnitTails → ev.Repeats state) ∧
      (ev.PositiveTails → (ev.Repeats state ↔ ev.UnitTails)) :=
  ⟨repeats_of_units run starts, fun positive =>
    ⟨fun ⟨_, again, _⟩ => units_of_repeats run positive again, repeats_of_units run starts⟩⟩

def shallow : Evaluator :=
  Config.evaluator (Config.workloads [("copy", ⟨["A"], "B"⟩)] [("M", 8)] [("A", ["M"]), ("B", ["M"])])
    4 [("Main2Cube", ⟨1, .HD, 1, 1⟩), ("Cube2Main", ⟨1, .HD, 1, 1⟩)]
    (Config.tile .Temporal "Main" [Config.loop "M" 2 2]
      [Config.op "Cube" "copy" [Config.loop "M" 4 4]])

theorem repeats_iff_unitTails_shallow :
    ∃ state, shallow.evaluate shallow.construct = .ok state ∧
      (shallow.UnitTails → shallow.Repeats state) ∧
        (shallow.PositiveTails → (shallow.Repeats state ↔ shallow.UnitTails)) := by
  have completed : (shallow.evaluate shallow.construct).isOk = true := by
    decide +kernel
  obtain ⟨state, run⟩ := exists_of_isOk completed
  exact ⟨state, run, repeats_iff_unitTails run (by decide +kernel)⟩

def tiled : Evaluator :=
  Config.evaluator (Config.workloads [("copy", ⟨["A"], "B"⟩)] [("M", 8)] [("A", ["M"]), ("B", ["M"])])
    4 [("Main2L1", ⟨1, .HD, 1, 1⟩), ("L12Main", ⟨1, .HD, 1, 1⟩), ("L12Cube", ⟨1, .HD, 1, 1⟩)]
    (Config.tile .Temporal "Main" [Config.loop "M" 2 2]
      [Config.tile .Temporal "L1" [Config.loop "M" 4 4]
        [Config.op "Cube" "copy" [Config.loop "M" 1 1]]])

/-- The loops of the Op are counted twice, 64 for a dimension of 8. -/
theorem tiled_evaluates_once :
    ∃ state, tiled.evaluate tiled.construct = .ok state ∧ ¬ tiled.Repeats state := by
  have completed : (tiled.evaluate tiled.construct).isOk = true := by
    decide +kernel
  obtain ⟨state, run⟩ := exists_of_isOk completed
  have again : (do
      let state ← tiled.evaluate tiled.construct
      tiled.evaluate state).isOk = false := by
    decide +kernel
  refine ⟨state, run, ?_⟩
  rintro ⟨state', second, _⟩
  rw [run, ok_bind, second] at again
  cases again

end TileExp.Analysis
