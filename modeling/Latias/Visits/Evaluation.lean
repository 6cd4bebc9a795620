import Latias.Counts.Accepted
import Latias.Visits.SmallSteps

/-! The passes of a completed `evaluate()` on a new evaluator. -/

namespace TileExp.Analysis

open Checked

variable {ev : Evaluator} {state : EvalState} {tree : EvaTree} {t : Tally}

theorem EvaTree.reset_fresh (ev : Evaluator) (node : NodePtr) :
    EvaTree.reset node (EvaTree.fresh ev) = EvaTree.fresh ev := by
  have unchanged {β : Type} (f : NodePtr → β) (v : β) (same : f node = v) :
      Function.update f node v = f := by
    rw [← same, Function.update_eq_self]
  simp only [EvaTree.reset, EvaTree.fresh, unchanged]

theorem Evaluator.reset_fresh (ev : Evaluator) :
    ev.reset (EvaTree.fresh ev) = EvaTree.fresh ev := by
  rw [Evaluator.reset, EvaTree.reset_fresh]
  induction ev.get_children [] with
  | nil => rfl
  | cons child rest ih => rw [List.foldl_cons, EvaTree.reset_fresh, ih]

def Evaluator.counted (ev : Evaluator) (inherit_loopnests_ : GetLoopCount.Inherit) : EvaTree :=
  { EvaTree.fresh ev with inherit_loopnests_ }

/-- An evaluation: the tree and the tally are those before and after `PerfAnalysis`. -/
structure Evaluator.Evaluated (ev : Evaluator) (state : EvalState) (tree : EvaTree) (t : Tally) :
    Prop where
  accepted : ev.Accepted
  initialised :
    InitAnalysis.run ev (ev.counted tree.inherit_loopnests_) = .ok (tree, state.leaf_vec_)
  perf : PerfAnalysis.run ev tree state.leaf_vec_ = .ok ⟨(PerfAnalysis.initial tree).walk, t⟩
  visited : LoopNest.visit (tree.context ev state.leaf_vec_) [] ev.root_ []
    (PerfAnalysis.initial tree).tally = .ok t
  result : state = ⟨Evaluator.treeAfter tree ⟨(PerfAnalysis.initial tree).walk, t⟩,
    state.leaf_vec_, t.data_movements_, t.process_latency_ [], t.log⟩

theorem InitAnalysis.run_keeps {counted : EvaTree} {leaf_vec_ : List NodePtr}
    (run : InitAnalysis.run ev counted = .ok (tree, leaf_vec_)) :
    tree = { counted with toEvaTensors := tree.toEvaTensors, toEvaOffsets := tree.toEvaOffsets } := by
  obtain ⟨⟨cursor, s⟩, _, result⟩ := bind_eq_ok.mp run
  cases result
  rfl

/-- What `evaluate()` does before `PerfAnalysis`, on a new evaluator. -/
def Evaluator.prepare (ev : Evaluator) : Exec (EvaTree × List NodePtr) := do
  let tree ← GetLoopCount.run ev (ev.reset (EvaTree.fresh ev))
  InitAnalysis.run ev tree

theorem Evaluator.evaluate_prepares (run : ev.evaluate ev.construct = .ok state) :
    ∃ tree t, ev.Evaluated state tree t ∧ ev.prepare = .ok (tree, state.leaf_vec_) := by
  rw [Evaluator.evaluate, Evaluator.construct, Evaluator.reset_fresh] at run
  obtain ⟨_, counting, run⟩ := bind_eq_ok.mp run
  obtain ⟨inherited, count, result⟩ := bind_eq_ok.mp counting
  cases result
  obtain ⟨_, initialising, run⟩ := bind_eq_ok.mp run
  obtain ⟨⟨tree, leaf_vec_⟩, init, result⟩ := bind_eq_ok.mp initialising
  cases result
  obtain ⟨s, perf, result⟩ := bind_eq_ok.mp run
  cases result
  obtain ⟨_, inherits⟩ := GetLoopCount.run_eq_ok (fun _ => rfl) count
  have accepted := GetLoopCount.run_accepted (fun _ => rfl) count
  have kept := InitAnalysis.run_keeps init
  have idle : tree.Idle ev := by
    rw [kept, inherits]
    rfl
  have start : inherited = ev.counted tree.inherit_loopnests_ := by
    rw [kept, inherits]
    rfl
  have nested := perf
  rw [PerfAnalysis.run_eq idle] at nested
  obtain ⟨t, visited, result⟩ := bind_eq_ok.mp nested
  cases result
  refine ⟨tree, t, ⟨accepted, start ▸ init, perf, visited, rfl⟩, ?_⟩
  rw [Evaluator.prepare, Evaluator.reset_fresh, count, ok_bind, init]

theorem Evaluator.evaluate_eq_ok (run : ev.evaluate ev.construct = .ok state) :
    ∃ tree t, ev.Evaluated state tree t := by
  obtain ⟨tree, t, evaluated, _⟩ := Evaluator.evaluate_prepares run
  exact ⟨tree, t, evaluated⟩

theorem Evaluator.evaluate_eq (ev : Evaluator) : ev.evaluate ev.construct = (do
    let (tree, leaf_vec_) ← ev.prepare
    let s ← PerfAnalysis.run ev tree leaf_vec_
    .ok ⟨Evaluator.treeAfter tree s, leaf_vec_, s.tally.data_movements_,
      s.tally.process_latency_ s.walk.current_node_, s.tally.log⟩) := by
  simp only [Evaluator.evaluate, Evaluator.prepare, Evaluator.get_loop_count,
    Evaluator.init_analysis, Evaluator.analysis_latias, Evaluator.construct, bind_assoc, ok_bind]

structure Evaluator.Prepared (ev : Evaluator) (tree : EvaTree) (leaf_vec_ : List NodePtr) : Prop where
  accepted : ev.Accepted
  idle : tree.Idle ev
  leaves : leaf_vec_ = (Rose.postorder [] ev.root_).filter (InitAnalysis.isLeaf ev)

theorem Evaluator.prepare_eq_ok {leaf_vec_ : List NodePtr}
    (ready : ev.prepare = .ok (tree, leaf_vec_)) : ev.Prepared tree leaf_vec_ := by
  rw [Evaluator.prepare, Evaluator.reset_fresh] at ready
  obtain ⟨counted, count, init⟩ := bind_eq_ok.mp ready
  obtain ⟨_, inherits⟩ := GetLoopCount.run_eq_ok (fun _ => rfl) count
  have empty : counted.NoTensors := by
    rw [inherits]
    exact ⟨fun _ => rfl, fun _ => rfl⟩
  obtain ⟨_, tables⟩ := InitAnalysis.run_tensors empty init
  have kept := InitAnalysis.run_keeps init
  refine ⟨GetLoopCount.run_accepted (fun _ => rfl) count, ?_, tables.leaves⟩
  rw [kept, inherits]
  rfl

namespace Evaluator.Evaluated

theorem noTensors (ev : Evaluator) (inherit_loopnests_ : GetLoopCount.Inherit) :
    (ev.counted inherit_loopnests_).NoTensors :=
  ⟨fun _ => rfl, fun _ => rfl⟩

theorem idle (evaluated : ev.Evaluated state tree t) : tree.Idle ev := by
  rw [InitAnalysis.run_keeps evaluated.initialised]
  rfl

theorem latencies (evaluated : ev.Evaluated state tree t) :
    tree.toEvaLatencies = (EvaTree.fresh ev).toEvaLatencies := by
  rw [InitAnalysis.run_keeps evaluated.initialised]
  rfl

theorem log (evaluated : ev.Evaluated state tree t) : state.log = t.log := by
  rw [evaluated.result]

theorem latency_ (evaluated : ev.Evaluated state tree t) :
    state.latency_ = t.process_latency_ [] := by
  rw [evaluated.result]

theorem data_movements_ (evaluated : ev.Evaluated state tree t) :
    state.data_movements_ = t.data_movements_ := by
  rw [evaluated.result]

theorem marks (evaluated : ev.Evaluated state tree t) :
    LoopNest.marks t = LoopNest.skeleton [] ev.root_ [] :=
  LoopNest.run_marks evaluated.idle evaluated.perf

theorem steps (evaluated : ev.Evaluated state tree t) :
    LoopNest.Steps (tree.context ev state.leaf_vec_) (PerfAnalysis.initial tree).tally t :=
  (LoopNest.visit_taken [] ev.root_ rfl [] _ t (fun _ => rfl) evaluated.visited).1

end Evaluator.Evaluated

end TileExp.Analysis
