import Latias.Application.Accepted
import Latias.Ranges.IterationSpace

/-! What a run of `main` computes. -/

namespace TileExp.Application

open Checked Analysis

variable {platform : Platform} {config : Configuration} {ev : Evaluator} {state : EvalState}
  {op : NodePtr}

def Tailed (ev : Evaluator) : Prop :=
  ∀ node ∈ Rose.postorder [] ev.root_, ∀ loop ∈ ev.loopnests_ node,
    1 ≤ loop.residual_end ∧ loop.residual_end ≤ loop.end_

instance (ev : Evaluator) : Decidable (Tailed ev) :=
  inferInstanceAs (Decidable (∀ node ∈ Rose.postorder [] ev.root_, _))

theorem Grounded.proper (grounded : Grounded config ev) (tailed : Tailed ev) : ev.ProperLoops := by
  intro node member loop own
  obtain ⟨start, stride, _⟩ := grounded.loops node loop own
  obtain ⟨positive, bounded⟩ := tailed node member loop own
  exact { start := start, stride := stride, positive := positive, bounded := bounded }

/-- A point of the iteration space that the problem's instance gives an Op. -/
def Configuration.InInstance (config : Configuration) (ev : Evaluator) (op : NodePtr)
    (p : String → Int) : Prop :=
  ∀ dim_name ∈ ev.opDims op,
    0 ≤ p dim_name ∧ p dim_name < (config.problem.instance_ dim_name).getD 0

instance (p : String → Int) : Decidable (config.InInstance ev op p) :=
  inferInstanceAs (Decidable (∀ dim_name ∈ ev.opDims op, _))

theorem exists_loop {dim_name : String} (looped : dim_name ∈ ev.opDims op) :
    ∃ node, ∃ loop ∈ ev.loopnests_ node, loop.name_ = dim_name := by
  obtain ⟨loop, member, name⟩ := List.mem_map.mp looped
  rw [Evaluator.opNests, List.flatten_append] at member
  rcases List.mem_append.mp member with above | own
  · obtain ⟨node, inside⟩ := mem_tileNests op above
    exact ⟨node, loop, inside, name⟩
  · exact ⟨op, loop, by simpa using own, name⟩

def Configuration.Declares (config : Configuration) (ev : Evaluator) : Prop :=
  ∀ node ∈ Rose.postorder [] ev.root_, ∀ loop ∈ ev.loopnests_ node,
    loop.name_ ∈ config.problem.dimensions

instance : Decidable (config.Declares ev) :=
  inferInstanceAs (Decidable (∀ node ∈ Rose.postorder [] ev.root_, _))

theorem Grounded.inSpace_iff (grounded : Grounded config ev) (declares : config.Declares ev)
    (p : String → Int) : ev.InSpace op p ↔ config.InInstance ev op p := by
  refine forall₂_congr fun dim_name looped => ?_
  obtain ⟨node, loop, own, rfl⟩ := exists_loop looped
  have listed := declares node (position_of_loop own) loop own
  obtain ⟨bound, given, same⟩ := (grounded.loops node loop own).2.2.declared listed
  rw [same, given, Option.getD_some]

/-- Whatever the configuration, a run computes every point of the iteration space that the instance
    gives a reached Op exactly once, and nothing outside it. -/
theorem instance_computed_once (configured : platform.configure config = .ok ev)
    (run : ev.evaluate ev.construct = .ok state) (declares : config.Declares ev)
    (tailed : Tailed ev) (distinct : ev.DistinctDims)
    (op_node : ev.IsOp op) (reached : ev.Reached op) (p : String → Int) :
    ev.timesComputed op state.log p = if config.InInstance ev op p then 1 else 0 := by
  have grounded := configure_grounded configured
  rw [computed_once run (grounded.proper tailed) distinct op_node reached p]
  exact if_congr (grounded.inSpace_iff declares p) rfl rfl

theorem instance_computed_once_copy : ∃ ev state, plainPlatform.configure copyConfig = .ok ev ∧
    ev.evaluate ev.construct = .ok state ∧ ∀ p, ev.timesComputed [0] state.log p =
      if copyConfig.InInstance ev [0] p then 1 else 0 := by
  have checked : ((plainPlatform.configure copyConfig).toOption.map fun ev =>
      (ev.evaluate ev.construct).isOk && decide (copyConfig.Declares ev ∧ Tailed ev ∧
        ev.DistinctDims ∧ ev.Reached [0] ∧ (ev.root_.get? [0]).isSome ∧
        ev.get_type [0] = .Op)) = some true := by
    decide +kernel
  obtain ⟨ev, configured, both⟩ := Option.map_eq_some_iff.mp checked
  obtain ⟨completed, conditions⟩ := Bool.and_eq_true_iff.mp both
  obtain ⟨declares, tailed, distinct, reached, op_node⟩ := of_decide_eq_true conditions
  obtain ⟨state, run⟩ := exists_of_isOk completed
  exact ⟨ev, state, mem_toOption.mp configured, run, fun p =>
    instance_computed_once (mem_toOption.mp configured) run declares tailed distinct op_node reached p⟩

end TileExp.Application
