import Latias.Ranges.Cells

/-! The ranges of a single operator's Tiles partition each dimension. -/

namespace TileExp.Analysis

open Checked LoopNest TailRadix

variable {ev : Evaluator} {ctx : PerfContext} {node : NodePtr} {dim_name name : String}
  {state : EvalState} {tree : EvaTree} {t : Tally} {is_input : Bool} {q : Rose.Address}
  {loop : Descriptor} {rest : List Descriptor} {range : StEd} {v : List LoopState}

theorem RangeFrom.remaining_eq (given : RangeFrom ctx node v dim_name range q loop rest) :
    ctx.ev.remaining dim_name node q = radix loop :: rest.map radix := by
  rw [Evaluator.remaining, digits, given.path, List.map_cons]

theorem RangeFrom.name_eq (given : RangeFrom ctx node v dim_name range q loop rest) :
    loop.name_ = dim_name := by
  have member : loop ∈ ofDim dim_name (ctx.ev.loopnests_ node ++ ctx.ev.loopsBelow node q) :=
    given.path ▸ List.mem_cons_self
  exact of_decide_eq_true (List.mem_filter.mp member).2

/-- The range of a visit is not empty, is inside what the visit covers, and ends with it when the
    visit is inside last iterations only. -/
structure RangeIn (ctx : PerfContext) (node : NodePtr) (dim_name : String) (q : Rose.Address)
    (v : List LoopState) (range : StEd) : Prop where
  low : range.1 = skewOf ctx v dim_name
  some : range.1 < range.2
  high : range.2 ≤ skewOf ctx v dim_name +
    block (ctx.ev.remaining dim_name node q) (isLast v dim_name)
  last : isLast v dim_name = true →
    range.2 = skewOf ctx v dim_name + block (ctx.ev.remaining dim_name node q) true

theorem RangeFrom.outerBound_eq (visited : v ∈ visits ctx.ev node)
    (given : RangeFrom ctx node v dim_name range q loop rest) :
    outerBound ctx.ev node v dim_name loop = (radix loop).rounds (isLast v dim_name) ∨
      outerBound ctx.ev node v dim_name loop = (radix loop).rounds true := by
  rw [outerBound]
  split
  · left
    rw [loopEnd, given.name_eq, TailRadix.rounds]
    cases node with
    | nil =>
      cases List.mem_singleton.mp visited
      rfl
    | cons i ptr => cases isLast v dim_name <;> rfl
  · exact Or.inr rfl

theorem RangeFrom.range_in (proper : ctx.ev.ProperLoops) (visited : v ∈ visits ctx.ev node)
    (given : RangeFrom ctx node v dim_name range q loop rest) :
    RangeIn ctx node dim_name q v range := by
  have digits_proper := proper.remaining dim_name node q
  rw [given.remaining_eq] at digits_proper
  have head := digits_proper _ List.mem_cons_self
  have tails : ∀ digit ∈ rest.map radix, digit.Proper := fun digit inside =>
    digits_proper digit (List.mem_cons_of_mem _ inside)
  have ends := extent_pos tails
  have covered := extent_le_block tails (isLast v dim_name)
  have weights := weight_pos tails
  have bound := given.outerBound_eq visited
  have low := given.low
  have high := given.high
  rw [dimCount_eq_extent, prod_ends_eq] at high
  have rounds : 1 ≤ (radix loop).rounds true ∧
      (radix loop).rounds true ≤ (radix loop).rounds (isLast v dim_name) := by
    refine ⟨head.positive, ?_⟩
    cases isLast v dim_name
    · exact head.bounded
    · exact Int.le_refl _
  have least : 1 ≤ outerBound ctx.ev node v dim_name loop ∧
      outerBound ctx.ev node v dim_name loop ≤ (radix loop).rounds (isLast v dim_name) := by
    rcases bound with same | same <;> omega
  have steps : 0 ≤ (outerBound ctx.ev node v dim_name loop - 1) * weight (rest.map radix) :=
    Int.mul_nonneg (by omega) (by omega)
  have more : (outerBound ctx.ev node v dim_name loop - 1) * weight (rest.map radix) ≤
      ((radix loop).rounds (isLast v dim_name) - 1) * weight (rest.map radix) :=
    Int.mul_le_mul_of_nonneg_right (by omega) (by omega)
  refine ⟨low, by omega, ?_, fun last => ?_⟩
  · rw [given.remaining_eq, block_cons]
    omega
  · rw [last] at bound
    rw [given.remaining_eq, block_cons, high, bound.elim id id]
    rfl

theorem extent_remaining_root (accepted : ev.Accepted) {op : NodePtr} (op_node : ev.IsOp op)
    (some : ev.remaining dim_name [] op ≠ []) :
    extent (ev.remaining dim_name [] op) = ev.workloads_.factorized_bound dim_name := by
  have split := @opNests_split ev [] op accepted.leaves (by rw [List.append_nil]; exact op_node.1)
  rw [List.append_nil] at split
  have same : ev.loopnests_ [] ++ ev.loopsBelow [] op = (ev.opNests op).flatten := by
    rw [split]
    rfl
  rw [Evaluator.remaining, same, digits] at some ⊢
  have counted : dim_name ∈ (ev.opNests op).flatten.map Descriptor.name_ := by
    by_contra absent
    rw [ofDim_eq_nil.mpr absent] at some
    exact some rfl
  rw [accepted.bounded op op_node dim_name counted, dimCount_eq_extent]

theorem RangeIn.bounds (accepted : ctx.ev.Accepted) (proper : ctx.ev.ProperLoops)
    (distinct : ctx.ev.DistinctDims) (along : OffsetsAlong ctx dim_name (q ++ node))
    (op_node : ctx.ev.IsOp (q ++ node)) (visited : v ∈ visits ctx.ev node)
    (given : RangeIn ctx node dim_name q v range)
    (some : ctx.ev.remaining dim_name [] (q ++ node) ≠ []) :
    0 ≤ range.1 ∧ range.2 ≤ ctx.ev.workloads_.factorized_bound dim_name ∧
      (isLast v dim_name = true → range.2 = ctx.ev.workloads_.factorized_bound dim_name) := by
  have cell := cellIn_visits proper distinct node q v along
    (Evaluator.isSome_get?_above op_node.1) visited
  have whole : block (ctx.ev.remaining dim_name [] (q ++ node)) true =
      ctx.ev.workloads_.factorized_bound dim_name := extent_remaining_root accepted op_node some
  have low := cell.low
  have high := cell.high
  have at_low := given.low
  have at_high := given.high
  have start : skewOf ctx [] dim_name = 0 := rfl
  have idle : isLast [] dim_name = true := rfl
  rw [idle, whole, start] at high
  refine ⟨by omega, by omega, fun last => ?_⟩
  have ends := (cell.last last).2
  rw [whole, start] at ends
  rw [given.last last]
  omega

theorem loopsBelow_root (leaves : ev.LeafOps) (found : (ev.root_.get? (q ++ node)).isSome) :
    ev.loopnests_ [] ++ ev.loopsBelow [] (q ++ node) =
      (ev.tileNests node).flatten ++ (ev.loopnests_ node ++ ev.loopsBelow node q) := by
  have whole := @opNests_split ev [] (q ++ node) leaves (by rwa [List.append_nil])
  rw [List.append_nil, opNests_split leaves found] at whole
  exact whole.symm

theorem remaining_root_ne_nil (leaves : ev.LeafOps) (found : (ev.root_.get? (q ++ node)).isSome)
    (some : ev.remaining dim_name node q ≠ []) : ev.remaining dim_name [] (q ++ node) ≠ [] := by
  rw [Evaluator.remaining, loopsBelow_root leaves found, digits_append]
  exact List.append_ne_nil_of_right_ne_nil _ some

theorem MadeIn.range_in (setting : RangeSetting ctx) (proper : ctx.ev.ProperLoops)
    (found : (ctx.ev.root_.get? node).isSome) {entry : List LoopState × Charge}
    (made : MadeIn ctx node name v entry) (inside : dim_name ∈ ctx.ev.tensorDims name) :
    ∃ q, ctx.ev.IsOp (q ++ node) ∧ ctx.ev.remaining dim_name node q ≠ [] ∧
      RangeIn ctx node dim_name q v (entry.2.after.range dim_name) := by
  obtain ⟨range, computed, recorded⟩ := made.ranges.inside dim_name inside
  rw [skewOf_firstIteration] at computed
  obtain ⟨q, loop, rest, given⟩ := exists_rangeFrom setting found
    (fun loop member => (proper.at member).toParsed) made.outside computed
  refine ⟨q, given.op, ?_, ?_⟩
  · rw [given.remaining_eq]
    exact List.cons_ne_nil _ _
  · rw [range_of_lookup recorded]
    exact given.range_in proper made.visit

structure Partitioned (ev : Evaluator) (node : NodePtr) (is_input : Bool) (name : String)
    (state : EvalState) : Prop where
  visits : ∀ map, (state.tree.table is_input node).lookup name = some map →
    (tensorCharges node is_input name state.log).map (fun entry => outer node entry.1) =
      visits ev node
  inside : ∀ entry ∈ tensorCharges node is_input name state.log, ∀ dim_name ∈ ev.tensorDims name,
    0 ≤ (entry.2.after.range dim_name).1 ∧
      (entry.2.after.range dim_name).1 < (entry.2.after.range dim_name).2 ∧
      (entry.2.after.range dim_name).2 ≤ ev.workloads_.factorized_bound dim_name
  apart : ∀ a ∈ tensorCharges node is_input name state.log,
    ∀ b ∈ tensorCharges node is_input name state.log, ∀ dim_name ∈ ev.tensorDims name,
      ¬ SameIndices [dim_name] (outer node a.1) (outer node b.1) →
        (a.2.after.range dim_name).2 ≤ (b.2.after.range dim_name).1 ∨
          (b.2.after.range dim_name).2 ≤ (a.2.after.range dim_name).1
  last : ∀ entry ∈ tensorCharges node is_input name state.log, ∀ dim_name ∈ ev.tensorDims name,
    isLast (outer node entry.1) dim_name = true →
      (entry.2.after.range dim_name).2 = ev.workloads_.factorized_bound dim_name

theorem Evaluator.ProperLoops.positive (proper : ev.ProperLoops) : ev.PositiveBounds := by
  intro node member loop inside
  have bounds := proper node member loop inside
  have positive := bounds.positive
  have bounded := bounds.bounded
  omega

theorem Evaluator.ProperLoops.startsAtZero (proper : ev.ProperLoops) : ev.StartsAtZero :=
  fun node member loop inside => (proper node member loop inside).start

theorem Evaluator.Evaluated.table_eq (evaluated : ev.Evaluated state tree t) :
    state.tree.table is_input node = t.table is_input node := by
  rw [evaluated.result]
  rfl

theorem Evaluator.Evaluated.charged_visits (evaluated : ev.Evaluated state tree t)
    (distinct : ev.DistinctTileDims) (proper : ev.ProperLoops) (found : (ev.root_.get? node).isSome)
    (tile : ev.get_type node = .Tile) {map : TensorMap}
    (present : (state.tree.table is_input node).lookup name = some map) :
    (tensorCharges node is_input name t.log).map (fun entry => outer node entry.1) =
      visits ev node := by
  have tables := evaluated.tables distinct
  have start : ∃ first, (tree.table is_input node).lookup name = some first := by
    rw [← Option.isSome_iff_exists]
    by_contra missing
    rw [evaluated.table_eq,
      tables.absent node is_input name (Option.not_isSome_iff_eq_none.mp missing)] at present
    cases present
  obtain ⟨first, at_start⟩ := start
  obtain ⟨last, _, _, iterations⟩ := tables.present node is_input name first at_start
  exact evaluated.outer_charges found tile (proper.positive.running proper.startsAtZero found)
    iterations

/-- At every visit the range of a dimension is part of its number line; ranges at different indices
    of the enclosing loops over it are disjoint; and the last one ends at the bound. -/
theorem tile_ranges_partition (run : ev.evaluate ev.construct = .ok state)
    (single : ev.SingleOperator) (distinct : ev.DistinctDims) (proper : ev.ProperLoops)
    (found : (ev.root_.get? node).isSome) (tile : ev.get_type node = .Tile) (is_input : Bool)
    (name : String) : Partitioned ev node is_input name state := by
  obtain ⟨tree, t, evaluated⟩ := Evaluator.evaluate_eq_ok run
  have setting := evaluated.setting distinct
  have recorded : ∀ entry ∈ tensorCharges node is_input name state.log,
      ∃ v, MadeIn (tree.context ev state.leaf_vec_) node name v entry := by
    rw [evaluated.log]
    exact fun entry member => evaluated.made_in distinct.tiles found tile member
  have along {q : Rose.Address} (op_node : ev.IsOp (q ++ node)) (dim_name : String) :
      OffsetsAlong (tree.context ev state.leaf_vec_) dim_name (q ++ node) :=
    offsetsAlong_single setting single op_node dim_name
  have bounds : ∀ entry ∈ tensorCharges node is_input name state.log,
      ∀ dim_name ∈ ev.tensorDims name, 0 ≤ (entry.2.after.range dim_name).1 ∧
        (entry.2.after.range dim_name).1 < (entry.2.after.range dim_name).2 ∧
        (entry.2.after.range dim_name).2 ≤ ev.workloads_.factorized_bound dim_name ∧
        (isLast (outer node entry.1) dim_name = true →
          (entry.2.after.range dim_name).2 = ev.workloads_.factorized_bound dim_name) := by
    intro entry member dim_name inside
    obtain ⟨v, made⟩ := recorded entry member
    obtain ⟨q, op_node, some, given⟩ := made.range_in setting proper found inside
    have limits := given.bounds evaluated.accepted proper distinct (along op_node dim_name) op_node
      made.visit (remaining_root_ne_nil evaluated.accepted.leaves op_node.1 some)
    rw [made.outer_eq]
    exact ⟨limits.1, given.some, limits.2⟩
  constructor
  · rw [evaluated.log]
    exact fun map present => evaluated.charged_visits distinct.tiles proper found tile present
  · intro entry member dim_name inside
    have limits := bounds entry member dim_name inside
    exact ⟨limits.1, limits.2.1, limits.2.2.1⟩
  · intro a at_a b at_b dim_name inside different
    obtain ⟨v, made_a⟩ := recorded a at_a
    obtain ⟨w, made_b⟩ := recorded b at_b
    obtain ⟨q, op_node, _, in_a⟩ := made_a.range_in setting proper found inside
    obtain ⟨q', op_node', _, in_b⟩ := made_b.range_in setting proper found inside
    have same : q' ++ node = q ++ node := single _ (InitAnalysis.mem_positions.mpr op_node'.1) _
      (InitAnalysis.mem_positions.mpr op_node.1) op_node'.2 op_node.2
    obtain rfl := List.append_cancel_right same
    rw [made_a.outer_eq, made_b.outer_eq] at different
    have low_a := in_a.low
    have low_b := in_b.low
    have high_a := in_a.high
    have high_b := in_b.high
    rcases distinguished_visits proper distinct node q' v w (along op_node dim_name) found made_a.visit
      made_b.visit with ⟨alike, _⟩ | before | after
    · exact absurd alike different
    · exact Or.inl (by omega)
    · exact Or.inr (by omega)
  · exact fun entry member dim_name inside last => (bounds entry member dim_name inside).2.2.2 last

theorem tile_ranges_partition_tailed :
    ∃ state, tailed.evaluate tailed.construct = .ok state ∧
      ((tensorCharges [0] true "A" state.log).map fun entry => entry.2.after.range "M") =
        [(0, 8), (0, 8), (0, 8), (9, 11), (9, 11), (9, 11)] ∧
      Partitioned tailed [0] true "A" state := by
  have charged : ((tailed.evaluate tailed.construct).toOption.map fun state =>
      (tensorCharges [0] true "A" state.log).map fun entry => entry.2.after.range "M") =
        some [(0, 8), (0, 8), (0, 8), (9, 11), (9, 11), (9, 11)] := by
    decide +kernel
  cases run : tailed.evaluate tailed.construct with
  | error fault => rw [run] at charged; cases charged
  | ok state =>
    rw [run] at charged
    exact ⟨state, rfl, Option.some_inj.mp charged, tile_ranges_partition run (by decide +kernel)
      (by decide +kernel) (by decide +kernel) (by decide +kernel) (by decide +kernel) true "A"⟩

end TileExp.Analysis
