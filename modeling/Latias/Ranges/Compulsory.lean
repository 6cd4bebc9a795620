import Latias.Ranges.Bounds
import Latias.Ranges.Coverage

/-! What the visits of a Tile fetch of an input, in total, when every loop divides perfectly. -/

namespace TileExp.Analysis

open Checked LoopNest TailRadix

structure Perfect (loop : Descriptor) : Prop extends Parsed loop where
  positive : 1 ≤ loop.end_
  even : loop.residual_end = loop.end_

instance (loop : Descriptor) : Decidable (Perfect loop) :=
  decidable_of_iff (Parsed loop ∧ 1 ≤ loop.end_ ∧ loop.residual_end = loop.end_)
    ⟨fun ⟨a, b, c⟩ => ⟨a, b, c⟩, fun ⟨a, b, c⟩ => ⟨a, b, c⟩⟩

def Evaluator.PerfectLoops (ev : Evaluator) : Prop :=
  ∀ node ∈ Rose.postorder [] ev.root_, ∀ loop ∈ ev.loopnests_ node, Perfect loop

instance (ev : Evaluator) : Decidable ev.PerfectLoops :=
  inferInstanceAs (Decidable (∀ node ∈ Rose.postorder [] ev.root_, _))

def Evaluator.LoneScopes (ev : Evaluator) : Prop :=
  ∀ node ∈ Rose.postorder [] ev.root_, ev.get_type node = .Tile →
    ∀ c ∈ (ev.ori_node_ node).children, Node.get_type c = .Scope →
      (ev.ori_node_ node).children.length = 1

instance (ev : Evaluator) : Decidable ev.LoneScopes :=
  inferInstanceAs (Decidable (∀ node ∈ Rose.postorder [] ev.root_, _))

variable {ev : Evaluator} {ctx : PerfContext} {node op : NodePtr} {dim_name name : String}
  {state : EvalState} {tree : EvaTree} {t : Tally} {q q' : Rose.Address} {loop : Descriptor}
  {v : List LoopState}

theorem Evaluator.PerfectLoops.proper (perfect : ev.PerfectLoops) : ev.ProperLoops := by
  intro node member loop inside
  have bounds := perfect node member loop inside
  have positive := bounds.positive
  have even := bounds.even
  exact ⟨bounds.toParsed, by omega, by omega⟩

theorem Evaluator.PerfectLoops.even (perfect : ev.PerfectLoops) (node : NodePtr)
    (q : Rose.Address) :
    ∀ loop ∈ ev.loopnests_ node ++ ev.loopsBelow node q, loop.residual_end = loop.end_ := by
  have at_node : ∀ node, ∀ loop ∈ ev.loopnests_ node, loop.residual_end = loop.end_ := by
    intro node loop own
    cases found : ev.root_.get? node with
    | none =>
      rw [Evaluator.loopnests_, Evaluator.ori_node_, found] at own
      cases own
    | some sub =>
      exact (perfect node (InitAnalysis.mem_positions.mpr (by rw [found]; rfl)) loop own).even
  intro loop member
  rcases List.mem_append.mp member with own | below
  · exact at_node node loop own
  · induction q with
    | nil => cases below
    | cons i q ih =>
      rcases List.mem_append.mp below with above | here
      · exact ih (List.mem_append_right _ above) above
      · exact at_node _ loop here

theorem Evaluator.PerfectLoops.extent_eq (perfect : ev.PerfectLoops) (dim_name : String)
    (node : NodePtr) (q : Rose.Address) :
    extent (ev.remaining dim_name node q) = weight (ev.remaining dim_name node q) := by
  rw [extent_eq_weight_iff (perfect.proper.remaining dim_name node q)]
  intro digit member
  obtain ⟨loop, inside, rfl⟩ := List.mem_map.mp member
  exact perfect.even node q loop (List.mem_of_mem_filter inside)

theorem Evaluator.PerfectLoops.block_eq (perfect : ev.PerfectLoops) (dim_name : String)
    (node : NodePtr) (q : Rose.Address) (last : Bool) :
    block (ev.remaining dim_name node q) last = weight (ev.remaining dim_name node q) := by
  cases last
  · rfl
  · exact perfect.extent_eq dim_name node q

theorem Evaluator.PerfectLoops.bound_eq (perfect : ev.PerfectLoops) (accepted : ev.Accepted)
    (op_node : ev.IsOp (q ++ node)) (some : ev.remaining dim_name node q ≠ []) :
    ev.workloads_.factorized_bound dim_name =
      weight (digits dim_name (ev.tileNests node).flatten) * weight (ev.remaining dim_name node q) := by
  rw [← extent_remaining_root accepted op_node
      (remaining_root_ne_nil accepted.leaves op_node.1 some), perfect.extent_eq, Evaluator.remaining,
    loopsBelow_root accepted.leaves op_node.1, digits_append, weight_append, Evaluator.remaining]

theorem Evaluator.PerfectLoops.weight_unique (perfect : ev.PerfectLoops) (accepted : ev.Accepted)
    (op_node : ev.IsOp (q ++ node)) (op_node' : ev.IsOp (q' ++ node))
    (some : ev.remaining dim_name node q ≠ []) (some' : ev.remaining dim_name node q' ≠ []) :
    weight (ev.remaining dim_name node q) = weight (ev.remaining dim_name node q') := by
  have same := (perfect.bound_eq accepted op_node some).symm.trans
    (perfect.bound_eq accepted op_node' some')
  have positive : 1 ≤ weight (digits dim_name (ev.tileNests node).flatten) := by
    apply weight_pos
    apply digits_proper
    intro loop member
    obtain ⟨ptr, own⟩ := mem_tileNests node member
    exact perfect.proper.at own
  exact Int.eq_of_mul_eq_mul_left (by omega) same

/-- With perfect division the offsets agree along every way down. -/
theorem offsetsAlong_perfect (setting : RangeSetting ctx) (perfect : ctx.ev.PerfectLoops)
    (op_node : ctx.ev.IsOp op) (dim_name : String) : OffsetsAlong ctx dim_name op := by
  constructor
  rintro q node rfl own
  have found := Evaluator.isSome_get?_above op_node.1
  obtain ⟨r, chain⟩ := exists_chain setting.accepted setting.distinct setting.offsets dim_name node
    found own
  have own_digits : digits dim_name (ctx.ev.loopnests_ node) ≠ [] := by
    intro none
    have absent := ofDim_eq_nil.mp (List.map_eq_nil_iff.mp none)
    exact absent own
  have some : ∀ q, ctx.ev.remaining dim_name node q ≠ [] := by
    intro q
    rw [Evaluator.remaining, digits_append]
    exact List.append_ne_nil_of_left_ne_nil own_digits _
  have same := perfect.weight_unique setting.accepted chain.op op_node (some r) (some q)
  rw [Evaluator.remaining, Evaluator.remaining, digits_append, digits_append, weight_append,
    weight_append] at same
  have positive : 1 ≤ weight (digits dim_name (ctx.ev.loopnests_ node)) :=
    weight_pos (digits_proper fun loop member => perfect.proper.at member)
  rw [PerfContext.dim_offset_, chain.dim_offset_, prod_ends_eq]
  exact Int.eq_of_mul_eq_mul_left (by omega) same

theorem RangeFrom.whole {range : StEd} {rest : List Descriptor} (perfect : ctx.ev.PerfectLoops)
    (visited : v ∈ visits ctx.ev node)
    (given : RangeFrom ctx node v dim_name range q loop rest) :
    range.2 = skewOf ctx v dim_name + weight (ctx.ev.remaining dim_name node q) := by
  have member : loop ∈ ofDim dim_name (ctx.ev.loopnests_ node ++ ctx.ev.loopsBelow node q) :=
    given.path ▸ List.mem_cons_self
  have even := perfect.even node q loop (List.mem_of_mem_filter member)
  have bound : outerBound ctx.ev node v dim_name loop = (radix loop).tail := by
    rcases given.outerBound_eq visited with same | same
    · rw [same, TailRadix.rounds]
      split
      · rfl
      · exact even.symm
    · exact same
  have high := given.high
  rw [dimCount_eq_extent, prod_ends_eq, bound] at high
  rw [high, ← perfect.extent_eq, given.remaining_eq, extent]

theorem MadeIn.range_whole (setting : RangeSetting ctx) (perfect : ctx.ev.PerfectLoops)
    (found : (ctx.ev.root_.get? node).isSome) {entry : List LoopState × Charge}
    (made : MadeIn ctx node name v entry) (inside : dim_name ∈ ctx.ev.tensorDims name) :
    ∃ q, ctx.ev.IsOp (q ++ node) ∧ ctx.ev.remaining dim_name node q ≠ [] ∧
      (entry.2.after.range dim_name).1 = skewOf ctx v dim_name ∧
      (entry.2.after.range dim_name).2 =
        skewOf ctx v dim_name + weight (ctx.ev.remaining dim_name node q) := by
  obtain ⟨range, computed, recorded⟩ := made.ranges.inside dim_name inside
  rw [skewOf_firstIteration] at computed
  obtain ⟨q, loop, rest, given⟩ := exists_rangeFrom setting found
    (fun loop member => (perfect.proper.at member).toParsed) made.outside computed
  refine ⟨q, given.op, ?_, ?_⟩
  · rw [given.remaining_eq]
    exact List.cons_ne_nil _ _
  · rw [range_of_lookup recorded]
    exact ⟨given.low, given.whole perfect made.visit⟩

theorem Evaluator.LoneScopes.reached (lone : ev.LoneScopes) (node : NodePtr) :
    (ev.root_.get? node).isSome → ev.Reached node := by
  induction node with
  | nil => exact fun _ => trivial
  | cons i ptr ih =>
    intro found
    have above := Evaluator.isSome_get?_parent found
    refine ⟨fun tile => ?_, ih above⟩
    have member : (i :: ptr) ∈ ev.get_children ptr := (mem_get_children above).mpr ⟨i, rfl, found⟩
    rw [reachedChild, List.all_eq_true]
    intro c earlier
    rw [decide_eq_true_eq]
    intro scope
    have only := lone ptr (InitAnalysis.mem_positions.mpr above) tile c (List.mem_of_mem_take earlier)
      scope
    rw [Evaluator.get_children] at member
    simp only [only] at member
    simp at member
    subst member
    cases earlier

/-- The amounts of a run are what each box has that the one before it does not. -/
theorem MapRun.newcomers {dims : Finset String} {first last : TensorMap}
    {run : List (List LoopState × Charge)} (lower : get_parent node ≠ none)
    (whole : MapRun ctx node true name first run last) (blank : first.dim_ranges_.entries = [])
    (over_dims : ∀ entry ∈ run, TensorMap.Over dims entry.2.after) :
    (run.map fun entry => entry.2.amount).sum =
      Boxes.newcomers ∅ (run.map fun entry => entry.2.after.points dims) := by
  induction whole with
  | nil => rfl
  | @snoc run before loops charge earlier made ih =>
    have over_after := over_dims (loops, charge) (List.mem_append_right run List.mem_cons_self)
    have over_run : ∀ entry ∈ run, TensorMap.Over dims entry.2.after := fun entry inside =>
      over_dims entry (List.mem_append_left _ inside)
    have moved := made.amount
    rw [tensorMovement, if_neg lower, if_pos rfl, made.before] at moved
    have some := nonempty_of_ok over_after moved
    have lengths := lengths_of_ok moved
    have amount : charge.amount = ((charge.after.points dims \
        (run.map fun entry => entry.2.after.points dims).getLastD ∅).card : Int) := by
      cases earlier with
      | nil =>
        rw [calTensorMapDM_start some lengths blank over_after] at moved
        rw [← Except.ok.inj moved]
        simp
      | @snoc run before' loops' charge' _ _ =>
        have over_before := over_run (loops', charge') (List.mem_append_right run List.mem_cons_self)
        rw [calTensorMapDM_eq some lengths over_before over_after] at moved
        rw [← Except.ok.inj moved]
        simp
    rw [List.map_append, List.sum_append, ih over_run, List.map_append, List.map_singleton,
      List.map_singleton, List.sum_singleton, Boxes.newcomers_snoc, amount, Nat.cast_add]

theorem exists_covering_visit (setting : RangeSetting ctx) (perfect : ctx.ev.PerfectLoops)
    (lone : ctx.ev.LoneScopes) (found : (ctx.ev.root_.get? node).isSome) {names : List String}
    {q : String → Rose.Address} {p : String → Int}
    (ways : ∀ dim_name ∈ names, ctx.ev.IsOp (q dim_name ++ node) ∧
      ctx.ev.remaining dim_name node (q dim_name) ≠ [])
    (inside : ∀ dim_name ∈ names, 0 ≤ p dim_name ∧
      p dim_name < ctx.ev.workloads_.factorized_bound dim_name) :
    ∃ v ∈ visits ctx.ev node, ∀ dim_name ∈ names, skewOf ctx v dim_name ≤ p dim_name ∧
      p dim_name < skewOf ctx v dim_name + weight (ctx.ev.remaining dim_name node (q dim_name)) := by
  have at_root : ([] : List LoopState) ∈ visits ctx.ev [] := List.mem_singleton_self []
  have path : node ++ [] = node := List.append_nil node
  obtain ⟨v, visited, _, covers⟩ := @exists_visit ctx [] [] names p perfect.proper setting.distinct
    setting.accepted.leaves at_root node q (by rwa [path]) (by
      rw [path]
      exact lone.reached node found)
    (fun dim_name member => by
      rw [path]
      exact offsetsAlong_perfect setting perfect (ways dim_name member).1 dim_name)
    (fun dim_name member => by
      obtain ⟨op_node, some⟩ := ways dim_name member
      have whole := extent_remaining_root setting.accepted op_node
        (remaining_root_ne_nil setting.accepted.leaves op_node.1 some)
      have bounds := inside dim_name member
      have start : skewOf ctx [] dim_name = 0 := rfl
      have idle : isLast [] dim_name = true := rfl
      rw [Covers, start, idle]
      simp only [block, if_true]
      omega)
  rw [path] at visited
  refine ⟨v, visited, fun dim_name member => ?_⟩
  have here := covers dim_name member
  rw [path, Covers, perfect.block_eq] at here
  exact here

theorem Evaluator.Evaluated.made_at (evaluated : ev.Evaluated state tree t)
    (distinct : ev.DistinctDims) (perfect : ev.PerfectLoops)
    (found : (ev.root_.get? node).isSome) (tile : ev.get_type node = .Tile) {map : TensorMap}
    (present : (state.tree.table true node).lookup name = some map) (member : v ∈ visits ev node) :
    ∃ entry ∈ tensorCharges node true name t.log,
      MadeIn (tree.context ev state.leaf_vec_) node name v entry := by
  rw [← evaluated.charged_visits distinct.tiles perfect.proper found tile present] at member
  obtain ⟨entry, inside, rfl⟩ := List.mem_map.mp member
  obtain ⟨w, made⟩ := evaluated.made_in distinct.tiles found tile inside
  exact ⟨entry, inside, made.outer_eq.symm ▸ made⟩

theorem Evaluator.Evaluated.ways (evaluated : ev.Evaluated state tree t)
    (distinct : ev.DistinctDims) (perfect : ev.PerfectLoops) (lone : ev.LoneScopes)
    (found : (ev.root_.get? node).isSome) (tile : ev.get_type node = .Tile) {map : TensorMap}
    (present : (state.tree.table true node).lookup name = some map) (dim_name : String) :
    ∃ q, dim_name ∈ ev.tensorDims name →
      ev.IsOp (q ++ node) ∧ ev.remaining dim_name node q ≠ [] := by
  have setting := evaluated.setting distinct
  obtain ⟨first, at_first, _⟩ := @exists_covering_visit (tree.context ev state.leaf_vec_) node setting
    perfect lone found [] (fun _ => []) (fun _ => 0) (by simp) (by simp)
  obtain ⟨entry, _, made⟩ := evaluated.made_at distinct perfect found tile present at_first
  by_cases inside : dim_name ∈ ev.tensorDims name
  · obtain ⟨q, op_node, some, _⟩ := made.range_whole setting perfect found inside
    exact ⟨q, fun _ => ⟨op_node, some⟩⟩
  · exact ⟨[], fun member => absurd member inside⟩

/-- The boxes of the charges of a tensor cover its whole space. -/
theorem Evaluator.Evaluated.covered (evaluated : ev.Evaluated state tree t)
    (distinct : ev.DistinctDims) (perfect : ev.PerfectLoops) (lone : ev.LoneScopes)
    (found : (ev.root_.get? node).isSome) (tile : ev.get_type node = .Tile) {map : TensorMap}
    (present : (state.tree.table true node).lookup name = some map) :
    Boxes.points (ev.tensorDims name).toFinset
        (fun dim_name => (0, ev.workloads_.factorized_bound dim_name)) ⊆
      Boxes.union ((tensorCharges node true name t.log).map fun entry =>
        entry.2.after.points (ev.tensorDims name).toFinset) := by
  have setting := evaluated.setting distinct
  choose q ways using evaluated.ways distinct perfect lone found tile present
  intro p member
  rw [Boxes.mem_points] at member
  obtain ⟨v, at_v, covers⟩ := @exists_covering_visit (tree.context ev state.leaf_vec_) node setting
    perfect lone found (ev.tensorDims name) q
    (fun dim_name => if inside : dim_name ∈ (ev.tensorDims name).toFinset then p dim_name inside else 0)
    ways (by
      intro dim_name inside
      simp only [dif_pos (List.mem_toFinset.mpr inside)]
      exact member dim_name (List.mem_toFinset.mpr inside))
  obtain ⟨entry, inside, made_v⟩ := evaluated.made_at distinct perfect found tile present at_v
  rw [Boxes.mem_union]
  refine ⟨_, List.mem_map_of_mem inside, ?_⟩
  rw [TensorMap.points, Boxes.mem_points]
  intro dim_name within
  have listed := List.mem_toFinset.mp within
  have cover := covers dim_name listed
  simp only [dif_pos within] at cover
  obtain ⟨r, op_node, some, low, high⟩ := made_v.range_whole setting perfect found listed
  have same := perfect.weight_unique evaluated.accepted op_node (ways dim_name listed).1 some
    (ways dim_name listed).2
  rw [low, high]
  have upper := cover.2
  change p dim_name within < skewOf _ v dim_name + weight (ev.remaining dim_name node (q dim_name))
    at upper
  change skewOf _ v dim_name ≤ p dim_name within ∧ p dim_name within <
    skewOf _ v dim_name + weight (ev.remaining dim_name node r)
  exact ⟨cover.1, by omega⟩

/-- The visits of a Tile fetch at least every element of an input, in whatever order the loops run
    and wherever those over other dimensions stand. -/
theorem compulsory_traffic_charged (run : ev.evaluate ev.construct = .ok state)
    (distinct : ev.DistinctDims) (perfect : ev.PerfectLoops) (lone : ev.LoneScopes)
    (found : (ev.root_.get? node).isSome) (tile : ev.get_type node = .Tile) (lower : node ≠ [])
    {map : TensorMap} (present : (state.tree.table true node).lookup name = some map) :
    (tensorCharges node true name state.log).map (fun entry => outer node entry.1) = visits ev node ∧
      ∏ dim_name ∈ (ev.tensorDims name).toFinset, ev.workloads_.factorized_bound dim_name ≤
        ((tensorCharges node true name state.log).map fun entry => entry.2.amount).sum := by
  obtain ⟨tree, t, evaluated⟩ := Evaluator.evaluate_eq_ok run
  have visited := evaluated.charged_visits distinct.tiles perfect.proper found tile present
  have covered := evaluated.covered distinct perfect lone found tile present
  rw [evaluated.log]
  refine ⟨visited, ?_⟩
  have over_dims : ∀ entry ∈ tensorCharges node true name t.log,
      TensorMap.Over (ev.tensorDims name).toFinset entry.2.after := by
    intro entry member
    obtain ⟨v, made⟩ := evaluated.made_in distinct.tiles found tile member
    exact made.ranges.over_dims evaluated.offsets perfect.proper.positive perfect.proper.startsAtZero
      distinct.tiles found tile made.outside
  have below_root : get_parent node ≠ none := by
    cases node with
    | nil => exact absurd rfl lower
    | cons i ptr => exact Option.some_ne_none _
  have total : (((tensorCharges node true name t.log).map fun entry => entry.2.amount).sum) =
      Boxes.newcomers ∅ ((tensorCharges node true name t.log).map fun entry =>
        entry.2.after.points (ev.tensorDims name).toFinset) := by
    cases charges : tensorCharges node true name t.log with
    | nil => rfl
    | cons entry rest =>
      have member : entry ∈ tensorCharges node true name t.log := charges ▸ List.mem_cons_self
      obtain ⟨last, maps, _⟩ := evaluated.map_run distinct.tiles member
      rw [← charges]
      exact maps.newcomers below_root rfl over_dims
  have counted := Finset.card_le_card covered
  have union := Boxes.card_union_le ((tensorCharges node true name t.log).map fun entry =>
    entry.2.after.points (ev.tensorDims name).toFinset)
  have positive : ∀ dim_name ∈ (ev.tensorDims name).toFinset,
      0 ≤ ev.workloads_.factorized_bound dim_name := by
    intro dim_name member
    obtain ⟨q, way⟩ := evaluated.ways distinct perfect lone found tile present dim_name
    obtain ⟨op_node, some⟩ := way (List.mem_toFinset.mp member)
    rw [← extent_remaining_root evaluated.accepted op_node
      (remaining_root_ne_nil evaluated.accepted.leaves op_node.1 some)]
    exact Int.le_trans (by omega) (extent_pos (perfect.proper.remaining dim_name [] _))
  have space := @Boxes.card_points_of_ordered _ _ _
    (fun dim_name => (0, ev.workloads_.factorized_bound dim_name)) positive
  simp only [Int.sub_zero] at space
  rw [total]
  omega

def fused : Evaluator :=
  Config.evaluator
    (Config.workloads [("first", ⟨["A"], "B"⟩), ("second", ⟨["B"], "C"⟩)] [("M", 4), ("N", 2)]
      [("A", ["M"]), ("B", ["M", "N"]), ("C", ["M", "N"])]) 1
    [("Main2L1", ⟨1, .HD, 1, 1⟩), ("L12Main", ⟨1, .HD, 1, 1⟩), ("L12Cube", ⟨1, .HD, 1, 1⟩)]
    (Config.tile .Temporal "Main" [Config.loop "N" 2 2, Config.loop "M" 2 2]
      [Config.scope .Sequential
        [Config.tile .Temporal "L1" [Config.loop "M" 2 2]
          [Config.op "Cube" "first" [Config.loop "M" 1 1, Config.loop "N" 1 1]],
        Config.tile .Temporal "L1" [Config.loop "M" 1 1]
          [Config.op "Cube" "second" [Config.loop "M" 2 2, Config.loop "N" 1 1]]]])

theorem compulsory_traffic_charged_fused :
    ∃ state map, fused.evaluate fused.construct = .ok state ∧
      (state.tree.table true [0, 0]).lookup "A" = some map ∧
      (tensorCharges [0, 0] true "A" state.log).map (fun entry => outer [0, 0] entry.1) =
        visits fused [0, 0] ∧
      ∏ dim_name ∈ (fused.tensorDims "A").toFinset, fused.workloads_.factorized_bound dim_name ≤
        ((tensorCharges [0, 0] true "A" state.log).map fun entry => entry.2.amount).sum := by
  have listed : ((fused.evaluate fused.construct).toOption.map fun state =>
      ((state.tree.table true [0, 0]).lookup "A").isSome) = some true := by
    decide +kernel
  cases run : fused.evaluate fused.construct with
  | error fault => rw [run] at listed; cases listed
  | ok state =>
    rw [run] at listed
    obtain ⟨map, present⟩ := Option.isSome_iff_exists.mp (Option.some_inj.mp listed)
    exact ⟨state, map, rfl, present, compulsory_traffic_charged run (by decide +kernel)
      (by decide +kernel) (by decide +kernel) (by decide +kernel) (by decide +kernel) (by decide)
      present⟩

end TileExp.Analysis
