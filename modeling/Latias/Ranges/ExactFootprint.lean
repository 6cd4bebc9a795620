import Latias.Ranges.Footprint

/-! When the recorded ranges and the charged volumes are what the Op executes. -/

namespace TileExp.Analysis

open Checked LoopNest TailRadix

variable {ev : Evaluator} {ctx : PerfContext} {node op : NodePtr} {dim_name name : String}
  {state : EvalState} {tree : EvaTree} {t t' : Tally} {u : List LoopState}

/-! The charges of the Op. -/

def opVolume (loops : List Descriptor) (map : TensorMap) : Int :=
  (map.tensor_dims_.map (PerfAnalysis.dimEnd loops)).prod

theorem opCharge_of_step (step : Step ctx t t') {input_dm output_dm : Int}
    (member : Event.opCharge op u input_dm output_dm ∈ t'.log) :
    Event.opCharge op u input_dm output_dm ∈ t.log ∨
      input_dm = PerfAnalysis.opMovement (ctx.ev.loopnests_ op) (t.table true op) ∧
        output_dm = PerfAnalysis.opMovement (ctx.ev.loopnests_ op) (t.table false op) := by
  have recorded {event : Event} (other : event ≠ .opCharge op u input_dm output_dm)
      (inside : Event.opCharge op u input_dm output_dm ∈ (t.record event).log) :
      Event.opCharge op u input_dm output_dm ∈ t.log := by
    rcases List.mem_append.mp inside with earlier | last
    · exact earlier
    · exact absurd (List.mem_singleton.mp last).symm other
  cases step with
  | enter ptr loops => exact Or.inl (recorded (fun same => by cases same) member)
  | leave ptr => exact Or.inl (recorded (fun same => by cases same) member)
  | op ptr loops =>
    rcases List.mem_append.mp member with earlier | last
    · exact Or.inl earlier
    · cases List.mem_singleton.mp last
      exact Or.inr ⟨rfl, rfl⟩
  | trans call =>
    rw [transTally_eq_ok call] at member
    exact Or.inl member
  | clearRow => exact Or.inl member
  | pushLatency => exact Or.inl member
  | copyRow => exact Or.inl member
  | finishScope call =>
    unfold finishScope at call
    split at call
    · cases call
    · cases call
      exact Or.inl member
  | pushRow call =>
    obtain ⟨_, rfl⟩ := pushRow_eq_ok call
    exact Or.inl (recorded (fun same => by cases same) member)
  | finishTile call =>
    obtain ⟨latency, _, rfl⟩ := finishTile_eq_ok call
    left
    split at member
    · exact recorded (fun same => by cases same) member
    · exact recorded (fun same => by cases same) member
  | charge skew call =>
    obtain ⟨ins, outs, tile, trans, entered⟩ := enterTile_eq_ok call
    rw [entered.result] at member
    rcases List.mem_append.mp member with earlier | later
    · exact Or.inl earlier
    · simp at later
  | clearSkew => exact Or.inl member
  | advanceSkew => exact Or.inl member
  | restoreSkew => exact Or.inl member

structure OpCharged (ev : Evaluator) (op : NodePtr) (start : EvaTensors) (t : Tally) : Prop where
  tensors : ∀ is_input, t.table is_input op = start.table is_input op
  amounts : ∀ u input_dm output_dm, Event.opCharge op u input_dm output_dm ∈ t.log →
    input_dm = PerfAnalysis.opMovement (ev.loopnests_ op) (start.table true op) ∧
      output_dm = PerfAnalysis.opMovement (ev.loopnests_ op) (start.table false op)

theorem OpCharged.step {start : EvaTensors} (before : OpCharged ctx.ev op start t)
    (step : Step ctx t t') (tensors : ∀ is_input, t'.table is_input op = t.table is_input op) :
    OpCharged ctx.ev op start t' := by
  constructor
  · intro is_input
    rw [tensors, before.tensors]
  · intro u input_dm output_dm member
    rcases opCharge_of_step step member with earlier | now
    · exact before.amounts u input_dm output_dm earlier
    · rwa [before.tensors, before.tensors] at now

theorem opCharged_step {start : EvaTensors} (distinct : ctx.ev.DistinctTileDims)
    (before : (∀ is_input, calls op is_input t.log = []) → OpCharged ctx.ev op start t)
    (step : Step ctx t t') (none : ∀ is_input, calls op is_input t'.log = []) :
    OpCharged ctx.ev op start t' := by
  rcases step_same_or_called distinct step with kept | ⟨ptr, loops, cs, called⟩
  · apply (before fun is_input => ?_).step step fun is_input => kept.table_eq is_input op
    rw [← kept.log, none]
  · have apart : op ≠ ptr := by
      rintro rfl
      have some := called.log true
      rw [none] at some
      exact List.append_ne_nil_of_right_ne_nil _ (List.cons_ne_nil _ []) some.symm
    apply (before fun is_input => ?_).step step fun is_input => called.others is_input op apart
    rw [← called.others_log is_input op apart, none]

theorem callLoops_of_op (op_node : ev.IsOp op) (is_input : Bool) :
    callLoops op is_input (skeleton [] ev.root_ []) = [] := by
  obtain ⟨info, cs, ops, found, kind⟩ := op_node.found
  rw [← callLoops_under, filter_skeleton op (.mk info cs) found]
  generalize visits ev op = outer
  induction outer with
  | nil => rfl
  | cons loops outer ih =>
    rw [List.flatMap_cons, callLoops_append, ih, skeleton, kind]
    rfl

theorem Evaluator.Evaluated.op_charge (evaluated : ev.Evaluated state tree t)
    (distinct : ev.DistinctTileDims) (op_node : ev.IsOp op) {input_dm output_dm : Int}
    (member : Event.opCharge op u input_dm output_dm ∈ t.log) :
    u ∈ visits ev op ∧
      input_dm = PerfAnalysis.opMovement (ev.loopnests_ op) (t.table true op) ∧
        output_dm = PerfAnalysis.opMovement (ev.loopnests_ op) (t.table false op) := by
  have quiet : ∀ is_input, Analysis.calls op is_input t.log = [] := by
    intro is_input
    rw [← List.map_eq_nil_iff, calls_map_fst, evaluated.marks]
    exact callLoops_of_op op_node is_input
  have charged : OpCharged ev op tree.toEvaTensors t := by
    refine steps_preserve (fun t t' before step => opCharged_step distinct before step)
      evaluated.steps (fun _ => ⟨fun _ => rfl, fun u input_dm output_dm member => ?_⟩) quiet
    cases member
  constructor
  · obtain ⟨info, cs, ops, found, kind⟩ := op_node.found
    have mark : Mark.op op u ∈ skeleton [] ev.root_ [] := by
      rw [← evaluated.marks]
      exact List.mem_map_of_mem member
    have below : Mark.op op u ∈ (skeleton [] ev.root_ []).filter (Mark.under op) :=
      List.mem_filter.mpr ⟨mark, Mark.under_iff.mpr List.suffix_rfl⟩
    rw [filter_skeleton op (.mk info cs) found] at below
    obtain ⟨v, visited, inside⟩ := List.mem_flatMap.mp below
    rw [skeleton, kind] at inside
    have same : u = v := by simpa using inside
    rwa [same]
  · rw [charged.tensors, charged.tensors]
    exact charged.amounts u input_dm output_dm member

theorem Evaluator.Evaluated.exists_op_charge (evaluated : ev.Evaluated state tree t)
    (op_node : ev.IsOp op) (visited : u ∈ visits ev op) :
    ∃ input_dm output_dm, Event.opCharge op u input_dm output_dm ∈ t.log := by
  obtain ⟨info, cs, ops, found, kind⟩ := op_node.found
  have mark : Mark.op op u ∈ LoopNest.marks t := by
    rw [evaluated.marks]
    apply mem_skeleton_of_visits found visited
    rw [skeleton, kind]
    simp
  obtain ⟨event, member, same⟩ := List.mem_map.mp mark
  cases event with
  | opCharge eva loops input_dm output_dm =>
    cases same
    exact ⟨input_dm, output_dm, member⟩
  | enter => cases same
  | charge => cases same
  | row => cases same
  | compute => cases same
  | leave => cases same

structure ExactFootprint (ev : Evaluator) (op : NodePtr) (state : EvalState) : Prop where
  ranges : ∀ node, (ev.root_.get? node).isSome → ev.get_type node = .Tile → ∀ is_input name map,
    (state.tree.table is_input node).lookup name = some map → ∀ dim_name ∈ ev.tensorDims name,
      ∀ entry ∈ tensorCharges node is_input name state.log, ∀ x,
        (entry.2.after.range dim_name).1 ≤ x ∧ x < (entry.2.after.range dim_name).2 ↔
          x ∈ ev.touched op (outer node entry.1) dim_name
  sums : ∀ u input_dm output_dm, Event.opCharge op u input_dm output_dm ∈ state.log →
    input_dm = PerfAnalysis.opMovement (ev.loopnests_ op) (state.tree.table true op) ∧
      output_dm = PerfAnalysis.opMovement (ev.loopnests_ op) (state.tree.table false op)
  volumes : ∀ u input_dm output_dm, Event.opCharge op u input_dm output_dm ∈ state.log →
    ∀ is_input name map, (state.tree.table is_input op).lookup name = some map →
      opVolume (ev.loopnests_ op) map = (map.tensor_dims_.map (ev.executed op u)).prod

/-- The tails that the code takes into account: the loops over a dimension below a Tile are even or
    the Tile is always in their last iteration, and the Op loops evenly over all its dimensions. -/
structure EvenTails (ev : Evaluator) (op : NodePtr) (state : EvalState) : Prop where
  tiles : ∀ node, (ev.root_.get? node).isSome → ev.get_type node = .Tile → ∀ is_input name map,
    (state.tree.table is_input node).lookup name = some map → ∀ dim_name ∈ ev.tensorDims name,
      ev.EvenBelow op node dim_name
  op : ∀ is_input name map, (state.tree.table is_input op).lookup name = some map →
    ∀ dim_name ∈ map.tensor_dims_, ev.EvenLoop op dim_name

theorem ranges_exact_iff (evaluated : ev.Evaluated state tree t) (single : ev.SingleOperator)
    (one : ev.OneChild) (distinct : ev.DistinctDims) (proper : ev.ProperLoops)
    (op_node : ev.IsOp op) (found : (ev.root_.get? node).isSome) (tile : ev.get_type node = .Tile)
    {is_input : Bool} {map : TensorMap}
    (present : (state.tree.table is_input node).lookup name = some map)
    (inside : dim_name ∈ ev.tensorDims name) :
    (∀ entry ∈ tensorCharges node is_input name state.log, ∀ x,
        (entry.2.after.range dim_name).1 ≤ x ∧ x < (entry.2.after.range dim_name).2 ↔
          x ∈ ev.touched op (outer node entry.1) dim_name) ↔ ev.EvenBelow op node dim_name := by
  have setting := evaluated.setting distinct
  have leaves := evaluated.accepted.leaves
  have reached : ev.Reached node := one.reached leaves node found (by
    rw [tile]
    exact fun same => by cases same)
  have visited := evaluated.charged_visits distinct.tiles proper found tile present
  have made : ∀ entry ∈ tensorCharges node is_input name t.log,
      ∃ v, MadeIn (tree.context ev state.leaf_vec_) node name v entry := fun entry member =>
    evaluated.made_in distinct.tiles found tile member
  -- some visit charges the tensor, so there is a way down to the Op
  obtain ⟨v, at_v, _⟩ := exists_last_visit proper leaves node found reached
  rw [← visited] at at_v
  obtain ⟨entry, member, _⟩ := List.mem_map.mp at_v
  obtain ⟨w, at_entry⟩ := made entry member
  obtain ⟨q, below, _⟩ := at_entry.range_in setting proper found inside
  have path : q ++ node = op := single _ (InitAnalysis.mem_positions.mpr below.1) _
    (InitAnalysis.mem_positions.mpr op_node.1) below.2 op_node.2
  subst path
  have reached_op : ev.Reached (q ++ node) := one.reached leaves _ op_node.1 (by
    rw [op_node.2]
    exact fun same => by cases same)
  rw [evaluated.log]
  exact all_touched_iff setting proper single op_node reached_op reached made visited inside

/-- The recorded ranges and the charged volumes are what the Op executes in every visit just when
    the code takes all tails into account. -/
theorem exact_footprint_iff (run : ev.evaluate ev.construct = .ok state)
    (single : ev.SingleOperator) (one : ev.OneChild) (distinct : ev.DistinctDims)
    (proper : ev.ProperLoops) (op_node : ev.IsOp op) :
    ExactFootprint ev op state ↔ EvenTails ev op state := by
  obtain ⟨tree, t, evaluated⟩ := Evaluator.evaluate_eq_ok run
  have reached : ev.Reached op := one.reached evaluated.accepted.leaves op op_node.1 (by
    rw [op_node.2]
    exact fun same => by cases same)
  have volumes := @volumes_iff ev op evaluated.accepted proper distinct op_node reached
  have charged : ∀ u input_dm output_dm, Event.opCharge op u input_dm output_dm ∈ state.log →
      u ∈ visits ev op ∧
        input_dm = PerfAnalysis.opMovement (ev.loopnests_ op) (state.tree.table true op) ∧
          output_dm = PerfAnalysis.opMovement (ev.loopnests_ op) (state.tree.table false op) := by
    intro u input_dm output_dm member
    rw [evaluated.log] at member
    rw [evaluated.table_eq, evaluated.table_eq]
    exact evaluated.op_charge distinct.tiles op_node member
  constructor
  · intro exact
    constructor
    · intro node found tile is_input name map present dim_name inside
      apply (ranges_exact_iff evaluated single one distinct proper op_node found tile present
        inside).mp
      exact exact.ranges node found tile is_input name map present dim_name inside
    · intro is_input name map present
      apply (volumes map.tensor_dims_).mp
      intro u visited
      obtain ⟨input_dm, output_dm, member⟩ := evaluated.exists_op_charge op_node visited
      rw [← evaluated.log] at member
      exact exact.volumes u input_dm output_dm member is_input name map present
  · intro even
    constructor
    · intro node found tile is_input name map present dim_name inside
      apply (ranges_exact_iff evaluated single one distinct proper op_node found tile present
        inside).mpr
      exact even.tiles node found tile is_input name map present dim_name inside
    · exact fun u input_dm output_dm member => (charged u input_dm output_dm member).2
    · intro u input_dm output_dm member is_input name map present
      apply (volumes map.tensor_dims_).mpr (even.op is_input name map present)
      exact (charged u input_dm output_dm member).1

instance (ev : Evaluator) (op node : NodePtr) (dim_name : String) :
    Decidable (ev.EvenBelow op node dim_name) :=
  inferInstanceAs (Decidable (_ ∨ _))

instance (ev : Evaluator) (op : NodePtr) (dim_name : String) :
    Decidable (ev.EvenLoop op dim_name) :=
  inferInstanceAs (Decidable (∃ loop ∈ ev.loopnests_ op, _))

/-- With tails at two levels of one dimension the ranges of the middle Tile end too early. -/
theorem tailed_ranges_end_early :
    ∃ state, tailed.evaluate tailed.construct = .ok state ∧ tailed.SingleOperator ∧
      tailed.OneChild ∧ tailed.DistinctDims ∧ tailed.ProperLoops ∧ tailed.IsOp [0, 0] ∧
        ¬ ExactFootprint tailed [0, 0] state := by
  have recorded : ((tailed.evaluate tailed.construct).toOption.map fun state =>
      ((state.tree.table true [0]).lookup "A").isSome) = some true := by
    decide +kernel
  cases run : tailed.evaluate tailed.construct with
  | error fault => rw [run] at recorded; cases recorded
  | ok state =>
    rw [run] at recorded
    obtain ⟨map, present⟩ := Option.isSome_iff_exists.mp (Option.some_inj.mp recorded)
    have op_node : tailed.IsOp [0, 0] := ⟨by decide +kernel, by decide +kernel⟩
    have single : tailed.SingleOperator := by decide +kernel
    have one : tailed.OneChild := by decide +kernel
    have distinct : tailed.DistinctDims := by decide +kernel
    have proper : tailed.ProperLoops := by decide +kernel
    refine ⟨state, rfl, single, one, distinct, proper, op_node, fun exact => ?_⟩
    obtain ⟨tree, t, evaluated⟩ := Evaluator.evaluate_eq_ok run
    have found : (tailed.root_.get? [0]).isSome := by decide +kernel
    have tile : tailed.get_type [0] = .Tile := by decide +kernel
    have inside : "M" ∈ tailed.tensorDims "A" := by decide +kernel
    have even := (ranges_exact_iff evaluated single one distinct proper op_node found tile present
      inside).mp (exact.ranges [0] found tile true "A" map present "M" inside)
    exact absurd even (by decide +kernel)

def endTailed : Evaluator :=
  Config.evaluator (Config.workloads [("copy", ⟨["A"], "B"⟩)] [("M", 12), ("N", 3)]
      [("A", ["M"]), ("B", ["M", "N"])])
    1 [("Main2L1", ⟨1, .HD, 1, 1⟩), ("L12Main", ⟨1, .HD, 1, 1⟩), ("L12Cube", ⟨1, .HD, 1, 1⟩)]
    (Config.tile .Temporal "Main" [Config.loop "M" 2 2, Config.loop "N" 3 3]
      [Config.tile .Temporal "L1" [Config.loop "M" 3 1]
        [Config.op "Cube" "copy" [Config.loop "M" 3 3, Config.loop "N" 1 1]]])

theorem exact_footprint_iff_endTailed :
    ∃ state, endTailed.evaluate endTailed.construct = .ok state ∧
      ((tensorCharges [0] true "A" state.log).map fun entry => entry.2.after.range "M") =
        [(0, 9), (0, 9), (0, 9), (9, 12), (9, 12), (9, 12)] ∧
      (ExactFootprint endTailed [0, 0] state ↔ EvenTails endTailed [0, 0] state) := by
  have charged : ((endTailed.evaluate endTailed.construct).toOption.map fun state =>
      (tensorCharges [0] true "A" state.log).map fun entry => entry.2.after.range "M") =
        some [(0, 9), (0, 9), (0, 9), (9, 12), (9, 12), (9, 12)] := by
    decide +kernel
  cases run : endTailed.evaluate endTailed.construct with
  | error fault => rw [run] at charged; cases charged
  | ok state =>
    rw [run] at charged
    exact ⟨state, rfl, Option.some_inj.mp charged, exact_footprint_iff run (by decide +kernel)
      (by decide +kernel) (by decide +kernel) (by decide +kernel)
      ⟨by decide +kernel, by decide +kernel⟩⟩

end TileExp.Analysis
