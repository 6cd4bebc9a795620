import Latias.Traffic.Tiles

/-! Which orders of the loops above a Tile fetch every element of an input once. -/

namespace TileExp.Analysis

open Checked LoopNest TailRadix

variable {ev : Evaluator} {node : NodePtr} {name : String} {state : EvalState} {tree : EvaTree}
  {t : Tally} {dims : List String} {loops : List Descriptor}

/-- The loops above a node that repeat what it has taken before: those over other dimensions, outside
    the innermost loop that changes the part taken. -/
def Evaluator.repeats (ev : Evaluator) (node : NodePtr) (dims : List String) : List Descriptor :=
  ((ev.tileNests node).flatten.rdropWhile (idleLoop dims)).filter fun loop => loop.name_ ∉ dims

theorem prod_ofDim (dims : Finset String) (loops : List Descriptor) :
    ∏ dim_name ∈ dims, ((ofDim dim_name loops).map Descriptor.end_).prod =
      ((loops.filter fun loop => loop.name_ ∈ dims).map Descriptor.end_).prod := by
  induction loops with
  | nil => simp [ofDim]
  | cons loop loops ih =>
    have split : ∀ dim_name, ((ofDim dim_name (loop :: loops)).map Descriptor.end_).prod =
        (if loop.name_ = dim_name then loop.end_ else 1) *
          ((ofDim dim_name loops).map Descriptor.end_).prod := by
      intro dim_name
      by_cases here : loop.name_ = dim_name
      · subst here
        rw [ofDim_cons_self, if_pos rfl, List.map_cons, List.prod_cons]
      · rw [ofDim_cons_ne here, if_neg here, one_mul]
    rw [Finset.prod_congr rfl fun dim_name _ => split dim_name, Finset.prod_mul_distrib, ih,
      Finset.prod_ite_eq, List.filter_cons]
    by_cases inside : loop.name_ ∈ dims
    · simp [inside]
    · simp [inside]

theorem prod_eq_one_iff (positive : ∀ loop ∈ loops, 1 ≤ loop.end_) :
    (loops.map Descriptor.end_).prod = 1 ↔ ∀ loop ∈ loops, loop.end_ = 1 := by
  induction loops with
  | nil => simp
  | cons loop loops ih =>
    have head := positive loop List.mem_cons_self
    have rest := ih fun l member => positive l (List.mem_cons_of_mem loop member)
    rw [List.map_cons, List.prod_cons, List.forall_mem_cons, ← rest]
    constructor
    · intro one
      have unit := Int.eq_one_or_neg_one_of_mul_eq_one one
      have first : loop.end_ = 1 := by omega
      exact ⟨first, by rwa [first, one_mul] at one⟩
    · rintro ⟨first, others⟩
      rw [first, others, one_mul]

/-- The rounds that change the part taken, and those that repeat it. -/
theorem Evaluator.reloads_eq (ev : Evaluator) (node : NodePtr) (dims : List String) :
    ev.reloads node dims = (∏ dim_name ∈ dims.toFinset,
      ((ofDim dim_name (ev.tileNests node).flatten).map Descriptor.end_).prod) *
        ((ev.repeats node dims).map Descriptor.end_).prod := by
  rw [prod_ofDim, Evaluator.reloads, Evaluator.repeats]
  generalize (ev.tileNests node).flatten = loops
  have parts : loops.rdropWhile (idleLoop dims) ++ loops.rtakeWhile (idleLoop dims) = loops :=
    List.rdropWhile_append_rtakeWhile
  have idle : (((loops.rtakeWhile (idleLoop dims)).filter fun loop => loop.name_ ∈ dims.toFinset).map
      Descriptor.end_).prod = 1 := by
    apply List.prod_eq_one
    intro bound member
    obtain ⟨loop, inside, rfl⟩ := List.mem_map.mp member
    obtain ⟨kept, watched⟩ := List.mem_filter.mp inside
    have stays := List.mem_rtakeWhile_imp kept
    have listed := List.mem_toFinset.mp (of_decide_eq_true watched)
    simpa [idleLoop, listed] using stays
  have changes : ((loops.filter fun loop => loop.name_ ∈ dims.toFinset).map Descriptor.end_).prod =
      (((loops.rdropWhile (idleLoop dims)).filter fun loop => loop.name_ ∈ dims.toFinset).map
        Descriptor.end_).prod := by
    nth_rewrite 1 [← parts]
    rw [List.filter_append, List.map_append, List.prod_append, idle, mul_one]
  rw [changes]
  have both := List.prod_map_filter_mul_prod_map_filter_not (fun loop : Descriptor => loop.name_ ∈ dims)
    Descriptor.end_ (loops.rdropWhile (idleLoop dims))
  simp only [List.mem_toFinset]
  exact both.symm

theorem Evaluator.Evaluated.tileSize_mul (evaluated : ev.Evaluated state tree t)
    (distinct : ev.DistinctDims) (perfect : ev.PerfectLoops) (lone : ev.LoneScopes)
    (found : (ev.root_.get? node).isSome) (tile : ev.get_type node = .Tile) {map : TensorMap}
    (present : (state.tree.table true node).lookup name = some map) :
    ev.tileSize node (ev.tensorDims name) * ∏ dim_name ∈ (ev.tensorDims name).toFinset,
      ((ofDim dim_name (ev.tileNests node).flatten).map Descriptor.end_).prod =
        ∏ dim_name ∈ (ev.tensorDims name).toFinset, ev.workloads_.factorized_bound dim_name := by
  rw [Evaluator.tileSize, ← Finset.prod_mul_distrib]
  refine Finset.prod_congr rfl fun dim_name member => ?_
  obtain ⟨q, way⟩ := evaluated.ways distinct perfect lone found tile present dim_name
  obtain ⟨op_node, some⟩ := way (List.mem_toFinset.mp member)
  have bound := perfect.bound_eq evaluated.accepted op_node some
  have ends : ((ofDim dim_name (ev.tileNests node).flatten).map Descriptor.end_).prod =
      weight (digits dim_name (ev.tileNests node).flatten) := prod_ends_eq _
  rw [bound, ends]
  exact Int.ediv_mul_cancel (Dvd.intro _ rfl)

/-- A Tile fetches each element of an input once for each round of the loops over other dimensions
    that stand outside the innermost loop over the input's own; so it fetches it once in all exactly
    when no such loop runs more than once. -/
theorem compulsory_traffic_met_iff (run : ev.evaluate ev.construct = .ok state)
    (distinct : ev.DistinctDims) (perfect : ev.PerfectLoops) (lone : ev.LoneScopes)
    (found : (ev.root_.get? node).isSome) (tile : ev.get_type node = .Tile) (lower : node ≠ [])
    {map : TensorMap} (present : (state.tree.table true node).lookup name = some map) :
    ((tensorCharges node true name state.log).map fun entry => entry.2.amount).sum =
        (∏ dim_name ∈ (ev.tensorDims name).toFinset, ev.workloads_.factorized_bound dim_name) *
          ((ev.repeats node (ev.tensorDims name)).map Descriptor.end_).prod ∧
      (((tensorCharges node true name state.log).map fun entry => entry.2.amount).sum =
          ∏ dim_name ∈ (ev.tensorDims name).toFinset, ev.workloads_.factorized_bound dim_name ↔
        ∀ loop ∈ ev.repeats node (ev.tensorDims name), loop.end_ = 1) := by
  obtain ⟨tree, t, evaluated⟩ := Evaluator.evaluate_eq_ok run
  have total : ((tensorCharges node true name state.log).map fun entry => entry.2.amount).sum =
      (∏ dim_name ∈ (ev.tensorDims name).toFinset, ev.workloads_.factorized_bound dim_name) *
        ((ev.repeats node (ev.tensorDims name)).map Descriptor.end_).prod := by
    rw [evaluated.log, evaluated.input_sum distinct perfect lone found tile (parent_ne_none lower) present,
      ev.reloads_eq, ← mul_assoc,
      evaluated.tileSize_mul distinct perfect lone found tile present]
  refine ⟨total, ?_⟩
  have positive : ∀ loop ∈ ev.repeats node (ev.tensorDims name), 1 ≤ loop.end_ := by
    intro loop member
    have inside := (List.rdropWhile_prefix _ _).subset (List.mem_of_mem_filter member)
    exact (perfect.above node loop inside).positive
  have bounds : 0 < ∏ dim_name ∈ (ev.tensorDims name).toFinset,
      ev.workloads_.factorized_bound dim_name := by
    apply Finset.prod_pos
    intro dim_name member
    obtain ⟨q, way⟩ := evaluated.ways distinct perfect lone found tile present dim_name
    obtain ⟨op_node, some⟩ := way (List.mem_toFinset.mp member)
    rw [← extent_remaining_root evaluated.accepted op_node
      (remaining_root_ne_nil evaluated.accepted.leaves op_node.1 some)]
    exact extent_pos (perfect.proper.remaining dim_name [] _)
  rw [total, ← prod_eq_one_iff positive]
  exact ⟨fun same => Int.eq_one_of_mul_eq_self_right (by omega) same, fun one => by rw [one, mul_one]⟩

theorem compulsory_traffic_met_iff_fused :
    ∃ state map, fused.evaluate fused.construct = .ok state ∧
      (state.tree.table true [0, 0]).lookup "A" = some map ∧
      (fused.repeats [0, 0] (fused.tensorDims "A")).map Descriptor.end_ = [2] ∧
      ((tensorCharges [0, 0] true "A" state.log).map fun entry => entry.2.amount).sum =
        (∏ dim_name ∈ (fused.tensorDims "A").toFinset, fused.workloads_.factorized_bound dim_name) *
          ((fused.repeats [0, 0] (fused.tensorDims "A")).map Descriptor.end_).prod := by
  obtain ⟨state, map, run, present⟩ := fused_run
  exact ⟨state, map, run, present, by decide +kernel, (compulsory_traffic_met_iff run (by decide +kernel)
    (by decide +kernel) (by decide +kernel) (by decide +kernel) (by decide +kernel) (by decide)
    present).1⟩

end TileExp.Analysis
