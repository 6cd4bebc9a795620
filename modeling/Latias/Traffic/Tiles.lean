import Latias.Traffic.Refetches

/-! What a Tile moves of a tensor in a run, as a product over the loops above it. -/

namespace TileExp.Analysis

open Checked LoopNest TailRadix

def Evaluator.tileSize (ev : Evaluator) (node : NodePtr) (dims : List String) : Int :=
  ∏ dim_name ∈ dims.toFinset, ev.workloads_.factorized_bound dim_name /
    ((ofDim dim_name (ev.tileNests node).flatten).map Descriptor.end_).prod

variable {ev : Evaluator} {ctx : PerfContext} {node : NodePtr} {name : String} {is_input : Bool}
  {state : EvalState} {tree : EvaTree} {t : Tally} {v w : List LoopState}

theorem MadeIn.card_box (setting : RangeSetting ctx) (perfect : ctx.ev.PerfectLoops)
    (found : (ctx.ev.root_.get? node).isSome) {entry : List LoopState × Charge}
    (made : MadeIn ctx node name v entry) :
    ((entry.2.after.points (ctx.ev.tensorDims name).toFinset).card : Int) =
      ctx.ev.tileSize node (ctx.ev.tensorDims name) := by
  have sides : ∀ dim_name ∈ (ctx.ev.tensorDims name).toFinset,
      (entry.2.after.range dim_name).2 - (entry.2.after.range dim_name).1 =
        ctx.ev.workloads_.factorized_bound dim_name /
          ((ofDim dim_name (ctx.ev.tileNests node).flatten).map Descriptor.end_).prod ∧
      (entry.2.after.range dim_name).1 ≤ (entry.2.after.range dim_name).2 := by
    intro dim_name member
    obtain ⟨q, op_node, some, low, high⟩ := made.range_whole setting perfect found
      (List.mem_toFinset.mp member)
    have above : 1 ≤ weight (digits dim_name (ctx.ev.tileNests node).flatten) :=
      weight_pos (digits_proper fun loop inside => (perfect.proper.at (mem_tileNests node inside).choose_spec))
    have least : 1 ≤ weight (ctx.ev.remaining dim_name node q) :=
      weight_pos (perfect.proper.remaining dim_name node q)
    have bound := perfect.bound_eq setting.accepted op_node some
    have ends : ((ofDim dim_name (ctx.ev.tileNests node).flatten).map Descriptor.end_).prod =
        weight (digits dim_name (ctx.ev.tileNests node).flatten) := prod_ends_eq _
    rw [bound, ends, Int.mul_ediv_cancel_left _ (by omega)]
    omega
  rw [TensorMap.points, Boxes.card_points_of_ordered fun dim_name member => (sides dim_name member).2,
    Evaluator.tileSize]
  exact Finset.prod_congr rfl fun dim_name member => (sides dim_name member).1

theorem MadeIn.disjoint (setting : RangeSetting ctx) (perfect : ctx.ev.PerfectLoops)
    (found : (ctx.ev.root_.get? node).isSome) {a b : List LoopState × Charge}
    (first : MadeIn ctx node name v a) (second : MadeIn ctx node name w b) {dim_name : String}
    (inside : dim_name ∈ ctx.ev.tensorDims name) (moved : ¬ SameIndices [dim_name] v w) :
    Disjoint (b.2.after.points (ctx.ev.tensorDims name).toFinset)
      (a.2.after.points (ctx.ev.tensorDims name).toFinset) := by
  obtain ⟨q, op_node, some, low_a, high_a⟩ := first.range_whole setting perfect found inside
  obtain ⟨q', op_node', some', low_b, high_b⟩ := second.range_whole setting perfect found inside
  have same := perfect.weight_unique setting.accepted op_node op_node' some some'
  have along := offsetsAlong_perfect setting perfect op_node dim_name
  have apart : (a.2.after.range dim_name).2 ≤ (b.2.after.range dim_name).1 ∨
      (b.2.after.range dim_name).2 ≤ (a.2.after.range dim_name).1 := by
    rcases distinguished_visits perfect.proper setting.distinct node q v w along found first.visit
      second.visit with ⟨alike, _⟩ | before | after
    · exact absurd alike moved
    · rw [perfect.block_eq] at before
      omega
    · rw [perfect.block_eq] at after
      omega
  rw [Finset.disjoint_left]
  intro p in_b in_a
  have member := List.mem_toFinset.mpr inside
  rw [TensorMap.points, Boxes.mem_points] at in_a in_b
  have at_a := in_a dim_name member
  have at_b := in_b dim_name member
  omega

theorem Evaluator.Evaluated.over_dims (evaluated : ev.Evaluated state tree t)
    (distinct : ev.DistinctDims) (perfect : ev.PerfectLoops) (found : (ev.root_.get? node).isSome)
    (tile : ev.get_type node = .Tile) {entry : List LoopState × Charge}
    (made : MadeIn (tree.context ev state.leaf_vec_) node name v entry) :
    TensorMap.Over (ev.tensorDims name).toFinset entry.2.after :=
  made.ranges.over_dims evaluated.offsets perfect.proper.positive perfect.proper.startsAtZero
    distinct.tiles found tile made.outside

theorem nonempty_of_volume {map : TensorMap} {dims : Finset String} {amount : Int}
    (over_dims : TensorMap.Over dims map) (call : calTensorMapVolume map = .ok amount) :
    dims.Nonempty := by
  obtain ⟨_, asserted, _⟩ := bind_eq_ok.mp call
  obtain ⟨entry, member⟩ := List.exists_mem_of_ne_nil _ (tileexpAssert_eq_ok.mp asserted)
  refine ⟨entry.1, ?_⟩
  rw [← over_dims.keys, List.mem_toFinset]
  exact List.mem_map_of_mem member

theorem parent_ne_none (lower : node ≠ []) : get_parent node ≠ none := by
  cases node with
  | nil => exact absurd rfl lower
  | cons i ptr => exact Option.some_ne_none _

theorem MapRun.first {first last : TensorMap} {run : List (List LoopState × Charge)}
    (whole : MapRun ctx node is_input name first run last) {entry : List LoopState × Charge}
    {rest : List (List LoopState × Charge)} (split : run = entry :: rest) :
    entry.2.before = first := by
  induction whole generalizing rest with
  | nil => cases split
  | @snoc run before loops charge earlier made ih =>
    cases earlier with
    | nil =>
      cases split
      exact made.before
    | @snoc run _ loops' charge' earlier' made' =>
      cases run with
      | nil =>
        cases split
        exact ih rfl
      | cons x run =>
        cases split
        exact ih rfl

/-- What a visit of a Tile pays for an input: its box, unless the visit before took the same. -/
theorem Evaluator.Evaluated.next_amount (evaluated : ev.Evaluated state tree t)
    (distinct : ev.DistinctDims) (perfect : ev.PerfectLoops) (found : (ev.root_.get? node).isSome)
    (tile : ev.get_type node = .Tile) (lower : get_parent node ≠ none)
    {front back : List (List LoopState × Charge)} {a b : List LoopState × Charge}
    (charges : tensorCharges node true name t.log = front ++ a :: b :: back) :
    b.2.amount = if shown (ev.tensorDims name) (outer node a.1) =
        shown (ev.tensorDims name) (outer node b.1) then 0
      else ev.tileSize node (ev.tensorDims name) := by
  have setting := evaluated.setting distinct
  split
  · next same =>
    exact evaluated.stationary_free distinct.tiles perfect.proper.startsAtZero
      perfect.proper.positive found tile charges (sameIndices_of_shown same)
  · next moved =>
    have at_a : a ∈ tensorCharges node true name t.log := by simp [charges]
    have at_b : b ∈ tensorCharges node true name t.log := by simp [charges]
    obtain ⟨v, made_a⟩ := evaluated.made_in distinct.tiles found tile at_a
    obtain ⟨w, made_b⟩ := evaluated.made_in distinct.tiles found tile at_b
    rw [made_a.outer_eq, made_b.outer_eq] at moved
    have keys : v.map LoopState.key = w.map LoopState.key :=
      (around_of_mem_visits node found v made_a.visit).keys.trans
        (around_of_mem_visits node found w made_b.visit).keys.symm
    obtain ⟨dim_name, inside, different⟩ := exists_moved keys moved
    have over_a := evaluated.over_dims distinct perfect found tile made_a
    have over_b := evaluated.over_dims distinct perfect found tile made_b
    obtain ⟨last, maps, _⟩ := evaluated.map_run distinct.tiles at_a
    obtain ⟨before, _, charged⟩ := maps.charged at_b
    have paid := charged.amount
    rw [tensorMovement, if_neg lower, if_pos rfl, maps.next charges] at paid
    have apart : Disjoint (b.2.after.points (ev.tensorDims name).toFinset)
        (a.2.after.points (ev.tensorDims name).toFinset) :=
      made_a.disjoint setting perfect found made_b inside different
    rw [calTensorMapDM_eq (nonempty_of_ok over_b paid) (lengths_of_ok paid) over_a over_b,
      Finset.sdiff_eq_self_of_disjoint apart] at paid
    rw [← Except.ok.inj paid]
    exact made_b.card_box setting perfect found

theorem Evaluator.Evaluated.first_amount (evaluated : ev.Evaluated state tree t)
    (distinct : ev.DistinctDims) (perfect : ev.PerfectLoops) (found : (ev.root_.get? node).isSome)
    (tile : ev.get_type node = .Tile) (lower : get_parent node ≠ none)
    {entry : List LoopState × Charge} {rest : List (List LoopState × Charge)}
    (charges : tensorCharges node true name t.log = entry :: rest) :
    entry.2.amount = ev.tileSize node (ev.tensorDims name) := by
  have setting := evaluated.setting distinct
  have member : entry ∈ tensorCharges node true name t.log := charges ▸ List.mem_cons_self
  obtain ⟨v, made⟩ := evaluated.made_in distinct.tiles found tile member
  have over_dims := evaluated.over_dims distinct perfect found tile made
  obtain ⟨last, maps, _⟩ := evaluated.map_run distinct.tiles member
  obtain ⟨before, _, charged⟩ := maps.charged member
  have paid := charged.amount
  rw [tensorMovement, if_neg lower, if_pos rfl] at paid
  have blank : entry.2.before.dim_ranges_.entries = [] := by
    rw [maps.first charges]
    rfl
  rw [calTensorMapDM_start (nonempty_of_ok over_dims paid) (lengths_of_ok paid) blank over_dims] at paid
  rw [← Except.ok.inj paid]
  exact made.card_box setting perfect found

theorem Evaluator.Evaluated.input_sum (evaluated : ev.Evaluated state tree t)
    (distinct : ev.DistinctDims) (perfect : ev.PerfectLoops) (lone : ev.LoneScopes)
    (found : (ev.root_.get? node).isSome) (tile : ev.get_type node = .Tile)
    (lower : get_parent node ≠ none) {map : TensorMap}
    (present : (state.tree.table true node).lookup name = some map) :
    ((tensorCharges node true name t.log).map fun entry => entry.2.amount).sum =
      ev.tileSize node (ev.tensorDims name) * ev.reloads node (ev.tensorDims name) := by
  have visited := evaluated.charged_visits distinct.tiles perfect.proper found tile present
  rw [← refreshes_visits perfect evaluated.accepted.leaves lone found, ← visited, List.map_map]
  apply Odometer.sum_eq_mul_refreshes
  · intro entry first
    cases charges : tensorCharges node true name t.log with
    | nil =>
      rw [charges] at first
      cases first
    | cons head rest =>
      rw [charges] at first
      cases first
      exact evaluated.first_amount distinct perfect found tile lower charges
  · exact fun front back a b charges =>
      evaluated.next_amount distinct perfect found tile lower charges

/-- Over a whole run a Tile fetches of an input as many elements as one visit takes, times the rounds
    of the loops above it up to the innermost one that changes what is taken. -/
theorem input_traffic (run : ev.evaluate ev.construct = .ok state)
    (distinct : ev.DistinctDims) (perfect : ev.PerfectLoops) (lone : ev.LoneScopes)
    (found : (ev.root_.get? node).isSome) (tile : ev.get_type node = .Tile) (lower : node ≠ [])
    {map : TensorMap} (present : (state.tree.table true node).lookup name = some map) :
    ((tensorCharges node true name state.log).map fun entry => entry.2.amount).sum =
      ev.tileSize node (ev.tensorDims name) * ev.reloads node (ev.tensorDims name) := by
  obtain ⟨tree, t, evaluated⟩ := Evaluator.evaluate_eq_ok run
  rw [evaluated.log]
  exact evaluated.input_sum distinct perfect lone found tile (parent_ne_none lower) present

theorem fused_run : ∃ state map, fused.evaluate fused.construct = .ok state ∧
    (state.tree.table true [0, 0]).lookup "A" = some map := by
  have listed : ((fused.evaluate fused.construct).toOption.map fun state =>
      ((state.tree.table true [0, 0]).lookup "A").isSome) = some true := by
    decide +kernel
  cases run : fused.evaluate fused.construct with
  | error fault => rw [run] at listed; cases listed
  | ok state =>
    rw [run] at listed
    obtain ⟨map, present⟩ := Option.isSome_iff_exists.mp (Option.some_inj.mp listed)
    exact ⟨state, map, rfl, present⟩

theorem input_traffic_fused :
    ∃ state map, fused.evaluate fused.construct = .ok state ∧
      (state.tree.table true [0, 0]).lookup "A" = some map ∧
      fused.reloads [0, 0] (fused.tensorDims "A") = 4 ∧
      ((tensorCharges [0, 0] true "A" state.log).map fun entry => entry.2.amount).sum =
        fused.tileSize [0, 0] (fused.tensorDims "A") * fused.reloads [0, 0] (fused.tensorDims "A") := by
  obtain ⟨state, map, run, present⟩ := fused_run
  exact ⟨state, map, run, present, by decide +kernel, input_traffic run (by decide +kernel)
    (by decide +kernel) (by decide +kernel) (by decide +kernel) (by decide +kernel) (by decide) present⟩

theorem Evaluator.Evaluated.output_sum (evaluated : ev.Evaluated state tree t)
    (distinct : ev.DistinctDims) (perfect : ev.PerfectLoops) (lone : ev.LoneScopes)
    (found : (ev.root_.get? node).isSome) (tile : ev.get_type node = .Tile)
    (lower : get_parent node ≠ none) {map : TensorMap}
    (present : (state.tree.table false node).lookup name = some map) :
    ((tensorCharges node false name t.log).map fun entry => entry.2.amount).sum =
      ev.tileSize node (ev.tensorDims name) * ev.roundsAbove node := by
  have setting := evaluated.setting distinct
  have visited := evaluated.charged_visits distinct.tiles perfect.proper found tile present
  have whole : ∀ entry ∈ tensorCharges node false name t.log,
      entry.2.amount = ev.tileSize node (ev.tensorDims name) := by
    intro entry member
    obtain ⟨v, made⟩ := evaluated.made_in distinct.tiles found tile member
    have over_dims := evaluated.over_dims distinct perfect found tile made
    obtain ⟨last, maps, _⟩ := evaluated.map_run distinct.tiles member
    obtain ⟨before, _, charged⟩ := maps.charged member
    have paid := charged.amount
    rw [tensorMovement, if_neg lower, if_neg Bool.false_ne_true] at paid
    rw [calTensorMapVolume_eq (nonempty_of_volume over_dims paid) over_dims] at paid
    rw [← Except.ok.inj paid]
    exact made.card_box setting perfect found
  rw [List.map_congr_left whole, List.map_const', List.sum_replicate, nsmul_eq_mul, Int.mul_comm,
    ← card_visits perfect evaluated.accepted.leaves lone found, ← visited, List.length_map]

end TileExp.Analysis
