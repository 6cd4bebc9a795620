import Latias.Analysis.Config
import Latias.Mapper.DataMovement
import Latias.Ranges.Root
import Latias.Visits.NoTrace

/-! The box of a tensor depends on the iterations over its own dimensions, and an input whose box
    does not move is not fetched again. -/

namespace TileExp.Analysis

open Checked

namespace LoopNest

variable {ev : Evaluator} {ctx : PerfContext} {node : NodePtr} {dims : List String}
  {dim_name : String} {v w : List LoopState}

def outer (node : NodePtr) (loops : List LoopState) : List LoopState :=
  loops.filter fun loop => loop.node ≠ node

/-- Every loop over one of the dimensions is at the same index. The loops around the visits of one
    node are those of the Tiles above it, in one order. -/
def SameIndices (dims : List String) (v w : List LoopState) : Prop :=
  List.Forall₂ (fun a b => a.name_ ∈ dims → a.index = b.index) v w

instance (dims : List String) (v w : List LoopState) : Decidable (SameIndices dims v w) :=
  inferInstanceAs (Decidable (List.Forall₂ _ v w))

/-- The iterations move a dimension as far and are as close to its end. -/
structure Alike (ctx : PerfContext) (dim_name : String) (v w : List LoopState) : Prop where
  skew : skewOf ctx v dim_name = skewOf ctx w dim_name
  last : isLast v dim_name = isLast w dim_name

theorem Alike.loopEnd (alike : Alike ctx dim_name v w) {loop : Descriptor}
    (name : loop.name_ = dim_name) : loopEnd node loop v = loopEnd node loop w := by
  subst name
  rw [LoopNest.loopEnd, LoopNest.loopEnd, alike.last]

theorem Alike.cons {loop : Descriptor} {i j : Nat} (alike : Alike ctx dim_name v w)
    (index : loop.name_ = dim_name → i = j) :
    Alike ctx dim_name (loopState node loop (LoopNest.loopEnd node loop v) i :: v)
      (loopState node loop (LoopNest.loopEnd node loop w) j :: w) := by
  by_cases same : loop.name_ = dim_name
  · have ends : LoopNest.loopEnd node loop v = LoopNest.loopEnd node loop w := alike.loopEnd same
    obtain rfl := index same
    constructor
    · simp only [skewOf_cons, loopState, same, Function.update_self, alike.skew]
    · rw [isLast_cons, isLast_cons, ends, alike.last]
  · constructor
    · simp only [skewOf_cons, loopState, Function.update_of_ne (Ne.symm same), alike.skew]
    · have other : ∀ loop_end i, (loopState node loop loop_end i).name_ ≠ dim_name := fun _ _ => same
      rw [isLast_cons, isLast_cons, if_neg (other _ _), if_neg (other _ _), alike.last]

theorem alike_iterations (inside : dim_name ∈ dims) (own : List Descriptor) :
    ∀ v' w', v ∈ iterations node own v' → w ∈ iterations node own w' → SameIndices dims v w →
      (SameIndices dims v' w' → Alike ctx dim_name v' w') → Alike ctx dim_name v w := by
  induction own with
  | nil =>
    intro v' w' at_v at_w same known
    cases List.mem_singleton.mp at_v
    cases List.mem_singleton.mp at_w
    exact known same
  | cons loop rest ih =>
    intro v' w' at_v at_w same known
    obtain ⟨i, _, at_v⟩ := List.mem_flatMap.mp at_v
    obtain ⟨j, _, at_w⟩ := List.mem_flatMap.mp at_w
    apply ih _ _ at_v at_w same
    intro heads
    obtain ⟨index, tails⟩ := List.forall₂_cons.mp heads
    apply (known tails).cons
    intro name
    have indices := index (show loop.name_ ∈ dims from name ▸ inside)
    simp only [loopState] at indices
    omega

theorem alike_visits (inside : dim_name ∈ dims) (node : NodePtr) :
    ∀ v w, v ∈ visits ev node → w ∈ visits ev node → SameIndices dims v w →
      Alike ctx dim_name v w := by
  induction node with
  | nil =>
    intro v w at_v at_w _
    cases List.mem_singleton.mp at_v
    cases List.mem_singleton.mp at_w
    exact ⟨rfl, rfl⟩
  | cons i ptr ih =>
    intro v w at_v at_w same
    obtain ⟨v', above_v, at_v⟩ := List.mem_flatMap.mp at_v
    obtain ⟨w', above_w, at_w⟩ := List.mem_flatMap.mp at_w
    rcases mem_childVisits.mp at_v with ⟨tile, _, inner_v⟩ | ⟨scope, _, rfl⟩
    · rcases mem_childVisits.mp at_w with ⟨_, _, inner_w⟩ | ⟨scope, _, _⟩
      · exact alike_iterations inside _ v' w' inner_v inner_w same (ih v' w' above_v above_w)
      · cases tile.symm.trans scope
    · rcases mem_childVisits.mp at_w with ⟨tile, _, _⟩ | ⟨_, _, rfl⟩
      · cases scope.symm.trans tile
      · exact ih v w above_v above_w same

theorem outer_firstIteration (own : List Descriptor) (outside : ∀ loop ∈ v, loop.node ≠ node) :
    outer node (firstIteration node own v) = v := by
  have kept : ∀ loops, outer node (firstIteration node own loops) = outer node loops := by
    induction own with
    | nil => exact fun loops => rfl
    | cons loop rest ih =>
      intro loops
      rw [firstIteration, ih, outer, List.filter_cons_of_neg (by simp [loopState])]
      rfl
  rw [kept, outer, List.filter_eq_self]
  intro loop member
  exact decide_eq_true (outside loop member)

theorem currentDimRange_alike (names : ((ctx.ev.loopnests_ node).map Descriptor.name_).Nodup)
    (outside_v : ∀ loop ∈ v, loop.node ≠ node) (outside_w : ∀ loop ∈ w, loop.node ≠ node)
    (alike : Alike ctx dim_name v w) :
    currentDimRange ctx (walkAt ctx node (firstIteration node (ctx.ev.loopnests_ node) v))
        (skewOf ctx (firstIteration node (ctx.ev.loopnests_ node) v)) dim_name =
      currentDimRange ctx (walkAt ctx node (firstIteration node (ctx.ev.loopnests_ node) w))
        (skewOf ctx (firstIteration node (ctx.ev.loopnests_ node) w)) dim_name := by
  have own : ownLoops node dim_name (firstIteration node (ctx.ev.loopnests_ node) v) =
      ownLoops node dim_name (firstIteration node (ctx.ev.loopnests_ node) w) := by
    rw [ownLoops_firstIteration _ names, ownLoops_firstIteration _ names,
      ownLoops_of_outside outside_v, ownLoops_of_outside outside_w]
    congr 1
    apply List.map_congr_left
    intro loop member
    rw [alike.loopEnd (of_decide_eq_true (List.mem_filter.mp member).2)]
  unfold ownLoops at own
  simp only [currentDimRange, walkAt, Walk.ofLoops, own, skewOf_firstIteration, alike.skew]

end LoopNest

open LoopNest

variable {ev : Evaluator} {ctx : PerfContext} {node : NodePtr} {state : EvalState} {tree : EvaTree}
  {t : Tally} {is_input : Bool} {name : String} {v w : List LoopState} {a b : TensorMap}

theorem RangesAt.alike {dims : List String} {ranges ranges' : Table DimRange}
    (names : ((ctx.ev.loopnests_ node).map Descriptor.name_).Nodup)
    (outside_v : ∀ loop ∈ v, loop.node ≠ node) (outside_w : ∀ loop ∈ w, loop.node ≠ node)
    (alike : ∀ dim_name ∈ dims, Alike ctx dim_name v w)
    (first : RangesAt ctx node (firstIteration node (ctx.ev.loopnests_ node) v)
      (skewOf ctx (firstIteration node (ctx.ev.loopnests_ node) v)) dims ranges)
    (second : RangesAt ctx node (firstIteration node (ctx.ev.loopnests_ node) w)
      (skewOf ctx (firstIteration node (ctx.ev.loopnests_ node) w)) dims ranges')
    (dim_name : String) : ranges.lookup dim_name = ranges'.lookup dim_name := by
  by_cases inside : dim_name ∈ dims
  · obtain ⟨range, computed, found⟩ := first.inside dim_name inside
    obtain ⟨range', computed', found'⟩ := second.inside dim_name inside
    rw [currentDimRange_alike names outside_v outside_w (alike dim_name inside)] at computed
    cases computed.symm.trans computed'
    rw [found, found']
  · rw [first.outside dim_name inside, second.outside dim_name inside]

theorem RangesAt.over_dims {dims : List String} {map : TensorMap}
    (init : InitAnalysis.OffsetsInit ctx.ev ctx.offsets) (positive : ctx.ev.PositiveBounds)
    (zero : ctx.ev.StartsAtZero) (distinct : ctx.ev.DistinctTileDims)
    (found : (ctx.ev.root_.get? node).isSome) (tile : ctx.ev.get_type node = .Tile)
    (outside : ∀ loop ∈ v, loop.node ≠ node)
    (given : RangesAt ctx node (firstIteration node (ctx.ev.loopnests_ node) v)
      (skewOf ctx (firstIteration node (ctx.ev.loopnests_ node) v)) dims map.dim_ranges_) :
    TensorMap.Over dims.toFinset map := by
  have here := InitAnalysis.mem_positions.mpr found
  have progress : ∀ dim_name, ∀ loop ∈ ownLoops node dim_name
      (firstIteration node (ctx.ev.loopnests_ node) v), InProgress ctx.ev loop := by
    intro dim_name loop member
    rw [ownLoops_firstIteration _ (distinct node here tile), ownLoops_of_outside outside,
      List.append_nil] at member
    obtain ⟨own, inside, rfl⟩ := List.mem_map.mp member
    have declared := List.mem_of_mem_filter inside
    apply inProgress_loopState (List.mem_map_of_mem declared)
    have bound : 1 ≤ loopEnd node own v := loopEnd_pos (positive.at declared) v
    rw [zero node here own declared]
    omega
  constructor
  · ext dim_name
    rw [List.mem_toFinset, List.mem_toFinset, ← AList.mem_keys, ← AList.lookup_isSome]
    by_cases inside : dim_name ∈ dims
    · obtain ⟨range, _, at_range⟩ := given.inside dim_name inside
      simp [at_range, inside]
    · simp [given.outside dim_name inside, inside]
  · intro dim_name inside
    obtain ⟨range, computed, at_range⟩ := given.inside dim_name (List.mem_toFinset.mp inside)
    rw [range_of_lookup at_range]
    exact currentDimRange_ordered init positive found (progress dim_name) computed

theorem nonempty_of_ok {dims : Finset String} {amount : Int} (over_dims : TensorMap.Over dims b)
    (call : calTensorMapDM a b = .ok amount) : dims.Nonempty := by
  obtain ⟨_, _, call⟩ := bind_eq_ok.mp call
  obtain ⟨_, asserted, _⟩ := bind_eq_ok.mp call
  have present := tileexpAssert_eq_ok.mp asserted
  obtain ⟨entry, member⟩ := List.exists_mem_of_ne_nil _ present
  refine ⟨entry.1, ?_⟩
  rw [← over_dims.keys, List.mem_toFinset]
  exact List.mem_map_of_mem member

theorem calTensorMapDM_same {dims : Finset String} {amount : Int} (over_a : TensorMap.Over dims a)
    (over_b : TensorMap.Over dims b)
    (same : ∀ dim_name, a.dim_ranges_.lookup dim_name = b.dim_ranges_.lookup dim_name)
    (call : calTensorMapDM a b = .ok amount) : amount = 0 := by
  have ranges : a.range = b.range := by
    funext dim_name
    rw [TensorMap.range, TensorMap.range, same]
  rw [calTensorMapDM_eq (nonempty_of_ok over_b call) (lengths_of_ok call) over_a over_b,
    TensorMap.points, TensorMap.points, ranges, Finset.sdiff_self] at call
  cases call
  rfl

theorem MapRun.next {first last : TensorMap} {run : List (List LoopState × Charge)}
    (whole : MapRun ctx node is_input name first run last) {front back : List (List LoopState × Charge)}
    {x y : List LoopState × Charge} (split : run = front ++ x :: y :: back) :
    y.2.before = x.2.after := by
  induction whole generalizing back with
  | nil => simp at split
  | @snoc run before loops charge earlier made ih =>
    rcases List.eq_nil_or_concat back with rfl | ⟨back, z, rfl⟩
    · have split' : run ++ [(loops, charge)] = (front ++ [x]) ++ [y] := by rw [split]; simp
      obtain ⟨rfl, last_eq⟩ := List.append_inj' split' rfl
      cases List.cons.inj last_eq |>.1
      rw [made.before]
      generalize parts : front ++ [x] = run at earlier
      cases earlier with
      | nil => simp at parts
      | snoc earlier made =>
        obtain ⟨_, same⟩ := List.append_inj' parts rfl
        cases List.cons.inj same |>.1
        rfl
    · have split' : run ++ [(loops, charge)] = (front ++ x :: y :: back) ++ [z] := by rw [split]; simp
      exact ih (List.append_inj' split' rfl).1

theorem Evaluator.Evaluated.map_run (evaluated : ev.Evaluated state tree t)
    (distinct : ev.DistinctTileDims) {entry : List LoopState × Charge}
    (member : entry ∈ tensorCharges node is_input name t.log) :
    ∃ last, MapRun (tree.context ev state.leaf_vec_) node is_input name (ev.blankMap name)
      (tensorCharges node is_input name t.log) last ∧
        (tensorCharges node is_input name t.log).map Prod.fst =
          (Analysis.calls node is_input t.log).map Prod.fst := by
  have tables := evaluated.tables distinct
  obtain ⟨loops, charge⟩ := entry
  obtain ⟨rfl, cs, call, inside⟩ := mem_tensorCharges.mp member
  obtain ⟨first, found⟩ := tables.names node is_input _ call charge inside
  obtain ⟨last, _, maps, iterations⟩ := tables.present node is_input _ first found
  rw [evaluated.blank found] at maps
  exact ⟨last, maps, iterations⟩

structure MadeIn (ctx : PerfContext) (node : NodePtr) (name : String) (v : List LoopState)
    (entry : List LoopState × Charge) : Prop where
  visit : v ∈ visits ctx.ev node
  loops : entry.1 = firstIteration node (ctx.ev.loopnests_ node) v
  ranges : RangesAt ctx node (firstIteration node (ctx.ev.loopnests_ node) v)
    (skewOf ctx (firstIteration node (ctx.ev.loopnests_ node) v)) (ctx.ev.tensorDims name)
      entry.2.after.dim_ranges_

theorem MadeIn.outside {entry : List LoopState × Charge} (made : MadeIn ctx node name v entry) :
    ∀ loop ∈ v, loop.node ≠ node :=
  fun _ inside => (node_of_mem_visits node made.visit inside).2

theorem MadeIn.outer_eq {entry : List LoopState × Charge} (made : MadeIn ctx node name v entry) :
    outer node entry.1 = v := by
  rw [made.loops, outer_firstIteration _ made.outside]

theorem Evaluator.Evaluated.made_in (evaluated : ev.Evaluated state tree t)
    (distinct : ev.DistinctTileDims) (found : (ev.root_.get? node).isSome)
    (tile : ev.get_type node = .Tile) {entry : List LoopState × Charge}
    (member : entry ∈ tensorCharges node is_input name t.log) :
    ∃ v, MadeIn (tree.context ev state.leaf_vec_) node name v entry := by
  obtain ⟨last, maps, iterations⟩ := evaluated.map_run distinct member
  obtain ⟨before, dims, made⟩ := maps.charged member
  obtain ⟨v, visited, loops⟩ := evaluated.call_in_visit found tile
    (iterations ▸ List.mem_map_of_mem member)
  have ranges := made.ranges
  rw [loops] at ranges
  exact ⟨v, visited, loops, (show before.tensor_dims_ = ev.tensorDims name from dims) ▸ ranges⟩

/-- The box of a tensor is the same in all visits of a Tile at the same indices of the loops over
    its dimensions. -/
theorem MadeIn.same_box {a b : List LoopState × Charge} (distinct : ctx.ev.DistinctTileDims)
    (found : (ctx.ev.root_.get? node).isSome) (tile : ctx.ev.get_type node = .Tile)
    (first : MadeIn ctx node name v a) (second : MadeIn ctx node name w b)
    (same : SameIndices (ctx.ev.tensorDims name) (outer node a.1) (outer node b.1))
    (dim_name : String) :
    a.2.after.dim_ranges_.lookup dim_name = b.2.after.dim_ranges_.lookup dim_name := by
  rw [first.outer_eq, second.outer_eq] at same
  apply RangesAt.alike (distinct node (InitAnalysis.mem_positions.mpr found) tile) first.outside
    second.outside _ first.ranges second.ranges
  exact fun name inside => alike_visits inside node v w first.visit second.visit same

structure Stationary (ev : Evaluator) (node : NodePtr) (name : String) (log : List Event) : Prop where
  box : ∀ is_input, ∀ a ∈ tensorCharges node is_input name log,
    ∀ b ∈ tensorCharges node is_input name log,
      SameIndices (ev.tensorDims name) (outer node a.1) (outer node b.1) → ∀ dim_name,
        a.2.after.dim_ranges_.lookup dim_name = b.2.after.dim_ranges_.lookup dim_name
  visits : ev.PositiveBounds → tensorCharges node true name log ≠ [] →
    (tensorCharges node true name log).map (fun entry => outer node entry.1) = visits ev node
  free : ev.PositiveBounds → ∀ front back a b,
    tensorCharges node true name log = front ++ a :: b :: back →
      SameIndices (ev.tensorDims name) (outer node a.1) (outer node b.1) → b.2.amount = 0

theorem Evaluator.Evaluated.stationary_free (evaluated : ev.Evaluated state tree t)
    (distinct : ev.DistinctTileDims) (zero : ev.StartsAtZero) (positive : ev.PositiveBounds)
    (found : (ev.root_.get? node).isSome) (tile : ev.get_type node = .Tile)
    {front back : List (List LoopState × Charge)} {a b : List LoopState × Charge}
    (split : tensorCharges node true name t.log = front ++ a :: b :: back)
    (same : SameIndices (ev.tensorDims name) (outer node a.1) (outer node b.1)) :
    b.2.amount = 0 := by
  have at_a : a ∈ tensorCharges node true name t.log := by simp [split]
  have at_b : b ∈ tensorCharges node true name t.log := by simp [split]
  obtain ⟨v, made_a⟩ := evaluated.made_in distinct found tile at_a
  obtain ⟨w, made_b⟩ := evaluated.made_in distinct found tile at_b
  have boxes := made_a.same_box distinct found tile made_b same
  obtain ⟨last, maps, _⟩ := evaluated.map_run distinct at_a
  obtain ⟨before, _, charged⟩ := maps.charged at_b
  have moved := charged.amount
  rw [maps.next split, tensorMovement] at moved
  split at moved
  · exact (Except.ok.inj moved).symm
  · rw [if_pos rfl] at moved
    have over_a := made_a.ranges.over_dims evaluated.offsets positive zero distinct found tile made_a.outside
    have over_b := made_b.ranges.over_dims evaluated.offsets positive zero distinct found tile made_b.outside
    exact calTensorMapDM_same over_a over_b boxes moved

theorem Evaluator.PositiveBounds.running (positive : ev.PositiveBounds) (zero : ev.StartsAtZero)
    (found : (ev.root_.get? node).isSome) : ev.Running node := by
  intro loop member loops
  have bound : 1 ≤ loopEnd node loop loops := loopEnd_pos (positive.at member) loops
  rw [zero node (InitAnalysis.mem_positions.mpr found) loop member]
  omega

theorem Evaluator.Evaluated.outer_charges (evaluated : ev.Evaluated state tree t)
    (found : (ev.root_.get? node).isSome) (tile : ev.get_type node = .Tile)
    (running : ev.Running node) (iterations : (tensorCharges node is_input name t.log).map Prod.fst =
      (Analysis.calls node is_input t.log).map Prod.fst) :
    (tensorCharges node is_input name t.log).map (fun entry => outer node entry.1) =
      visits ev node := by
  have loops : (tensorCharges node is_input name t.log).map (fun entry => outer node entry.1) =
      ((tensorCharges node is_input name t.log).map Prod.fst).map (outer node) := by
    rw [List.map_map]
    rfl
  have back : ∀ v ∈ visits ev node,
      (outer node ∘ firstIteration node (ev.loopnests_ node)) v = v := fun v visited =>
    outer_firstIteration _ fun loop inside => (node_of_mem_visits node visited inside).2
  rw [loops, iterations, evaluated.calls found tile running, List.map_map,
    List.map_congr_left back, List.map_id']

/-- The box recorded for a tensor is a function of the indices of the enclosing loops over its own
    dimensions; and where every loop runs, a visit at the same indices as the visit before it pays
    nothing for an input. -/
theorem stationary_inputs_free (run : ev.evaluate ev.construct = .ok state)
    (distinct : ev.DistinctTileDims) (zero : ev.StartsAtZero) (found : (ev.root_.get? node).isSome)
    (tile : ev.get_type node = .Tile) (name : String) : Stationary ev node name state.log := by
  obtain ⟨tree, t, evaluated⟩ := Evaluator.evaluate_eq_ok run
  rw [evaluated.log]
  constructor
  · intro is_input a at_a b at_b same
    obtain ⟨v, made_a⟩ := evaluated.made_in distinct found tile at_a
    obtain ⟨w, made_b⟩ := evaluated.made_in distinct found tile at_b
    exact made_a.same_box distinct found tile made_b same
  · intro positive some
    obtain ⟨entry, member⟩ := List.exists_mem_of_ne_nil _ some
    obtain ⟨last, _, iterations⟩ := evaluated.map_run distinct member
    exact evaluated.outer_charges found tile (positive.running zero found) iterations
  · intro positive front back a b split same
    exact evaluated.stationary_free distinct zero positive found tile split same

def inverted : Evaluator :=
  Config.evaluator (Config.workloads [("copy", ⟨["A"], "B"⟩)] [("M", 10), ("N", 2)]
      [("A", ["M"]), ("B", ["M", "N"])])
    1 [("Main2L1", ⟨1, .HD, 1, 1⟩), ("L12Main", ⟨1, .HD, 1, 1⟩), ("L12L2", ⟨1, .HD, 1, 1⟩),
      ("L22L1", ⟨1, .HD, 1, 1⟩), ("L22Cube", ⟨1, .HD, 1, 1⟩)]
    (Config.tile .Temporal "Main" [Config.loop "M" 2 2, Config.loop "N" 2 2]
      [Config.tile .Temporal "L1" [Config.loop "N" 1 1]
        [Config.tile .Temporal "L2" [Config.loop "M" 4 0]
          [Config.op "Cube" "copy" [Config.loop "M" 3 1, Config.loop "N" 1 1]]]])

/-- The second visit of a Tile is charged for a tensor whose dimension did not advance. -/
theorem inverted_charged_again :
    (inverted.DistinctTileDims ∧ inverted.StartsAtZero) ∧
      ∃ state a b back, inverted.evaluate inverted.construct = .ok state ∧
        tensorCharges [0] true "A" state.log = a :: b :: back ∧
        SameIndices (inverted.tensorDims "A") (outer [0] a.1) (outer [0] b.1) ∧ b.2.amount ≠ 0 := by
  refine ⟨by decide +kernel, ?_⟩
  have charged : ((inverted.evaluate inverted.construct).toOption.map fun state =>
      match tensorCharges [0] true "A" state.log with
      | [] => false
      | [_] => false
      | a :: b :: _ => decide (SameIndices (inverted.tensorDims "A") (outer [0] a.1) (outer [0] b.1) ∧
          b.2.amount ≠ 0)) = some true := by
    decide +kernel
  cases run : inverted.evaluate inverted.construct with
  | error fault => rw [run] at charged; cases charged
  | ok state =>
    rw [run] at charged
    have first_two := Option.some_inj.mp charged
    cases list : tensorCharges [0] true "A" state.log with
    | nil => simp [list] at first_two
    | cons a rest =>
      cases rest with
      | nil => simp [list] at first_two
      | cons b back =>
        simp only [list] at first_two
        exact ⟨state, a, b, back, rfl, list, of_decide_eq_true first_two⟩

def tailed : Evaluator :=
  Config.evaluator (Config.workloads [("copy", ⟨["A"], "B"⟩)] [("M", 11), ("N", 3)]
      [("A", ["M"]), ("B", ["M", "N"])])
    1 [("Main2L1", ⟨1, .HD, 1, 1⟩), ("L12Main", ⟨1, .HD, 1, 1⟩), ("L12Cube", ⟨1, .HD, 1, 1⟩)]
    (Config.tile .Temporal "Main" [Config.loop "M" 2 2, Config.loop "N" 3 3]
      [Config.tile .Temporal "L1" [Config.loop "M" 3 1]
        [Config.op "Cube" "copy" [Config.loop "M" 3 2, Config.loop "N" 1 1]]])

theorem stationary_inputs_free_tailed :
    ∃ state, tailed.evaluate tailed.construct = .ok state ∧
      ((tensorCharges [0] true "A" state.log).map fun entry => entry.2.amount) = [8, 0, 0, 2, 0, 0] ∧
      Stationary tailed [0] "A" state.log := by
  have charged : ((tailed.evaluate tailed.construct).toOption.map fun state =>
      (tensorCharges [0] true "A" state.log).map fun entry => entry.2.amount) =
        some [8, 0, 0, 2, 0, 0] := by
    decide +kernel
  cases run : tailed.evaluate tailed.construct with
  | error fault => rw [run] at charged; cases charged
  | ok state =>
    rw [run] at charged
    exact ⟨state, rfl, Option.some_inj.mp charged, stationary_inputs_free run (by decide +kernel)
      (by decide +kernel) (by decide +kernel) (by decide +kernel) "A"⟩

end TileExp.Analysis
