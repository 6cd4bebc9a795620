import Latias.Visits.FirstIteration
import Latias.Offsets.Carrier
import Latias.Offsets.Positive
import Mathlib.Tactic.Ring

/-! The ranges `addCurrentTensor` gives the dimensions of a tensor. -/

namespace TileExp.Analysis

open Checked LoopNest

variable {ctx : PerfContext} {node : NodePtr} {loops : List LoopState} {skew : String → Int}
  {dim_name : String}

theorem currentDimRange_own {loop : LoopState} {rest : List LoopState}
    (own : ownLoops node dim_name loops = loop :: rest) :
    currentDimRange ctx (LoopNest.walkAt ctx node loops) skew dim_name =
      .ok (loop.ori_start * (ctx.dim_offset_ node dim_name).1 + skew dim_name,
        (loop.loop_end - 1) * (ctx.dim_offset_ node dim_name).1 +
          (ctx.dim_offset_ node dim_name).2 + skew dim_name) := by
  unfold ownLoops at own
  simp only [currentDimRange, LoopNest.walkAt, Walk.ofLoops, own, List.map_cons]

theorem currentDimRange_below {range : StEd} (found : (ctx.ev.root_.get? node).isSome)
    (none : ownLoops node dim_name loops = [])
    (call : currentDimRange ctx (LoopNest.walkAt ctx node loops) skew dim_name = .ok range) :
    ∃ carrier, Carrier ctx.ev ctx.offsets dim_name node carrier ∧
      range = (skew dim_name, skew dim_name + (ctx.dim_offset_ carrier dim_name).1 *
        ((lastBounds (ctx.ev.loopnests_ carrier) dim_name).2 - 1) +
          (ctx.dim_offset_ carrier dim_name).2) := by
  unfold ownLoops at none
  simp only [currentDimRange, LoopNest.walkAt, Walk.ofLoops, none, List.map_nil] at call
  cases search : BFSOffsetLoop ctx.ev ctx.offsets node dim_name with
  | none => rw [search] at call; cases call
  | some pair =>
    rw [search] at call
    cases call
    obtain ⟨carrier, carries, rfl⟩ := BFSOffsetLoop_eq_some found search
    exact ⟨carrier, carries, rfl⟩

structure InProgress (ev : Evaluator) (loop : LoopState) : Prop where
  declared : loop.name_ ∈ ev.dims loop.node
  running : loop.ori_start < loop.loop_end

theorem inProgress_loopState {ev : Evaluator} {loop : Descriptor} {i : Nat}
    (declared : loop.name_ ∈ ev.dims node)
    (bound : i < (loopEnd node loop loops - loop.start).toNat) :
    InProgress ev (loopState node loop (loopEnd node loop loops) i) := by
  refine ⟨declared, ?_⟩
  simp only [loopState]
  omega

theorem currentDimRange_ordered (init : InitAnalysis.OffsetsInit ctx.ev ctx.offsets)
    (positive : ctx.ev.PositiveBounds) (found : (ctx.ev.root_.get? node).isSome)
    (inside : ∀ loop ∈ ownLoops node dim_name loops, InProgress ctx.ev loop) {range : StEd}
    (call : currentDimRange ctx (walkAt ctx node loops) skew dim_name = .ok range) :
    range.1 ≤ range.2 := by
  cases own : ownLoops node dim_name loops with
  | cons loop rest =>
    rw [currentDimRange_own own] at call
    cases call
    have member : loop ∈ ownLoops node dim_name loops := own ▸ List.mem_cons_self
    have progress := inside loop member
    obtain ⟨_, rfl, rfl⟩ := mem_ownLoops.mp member
    have offsets := offsets_pos init positive loop.node found loop.name_ progress.declared
    have covered := offsets.range (show 1 ≤ loop.loop_end - loop.ori_start by
      have running := progress.running
      omega)
    simp only [PerfContext.dim_offset_]
    have expand : (loop.loop_end - 1) * (ctx.offsets.dim_offset_ loop.node loop.name_).getD 0 =
        loop.ori_start * (ctx.offsets.dim_offset_ loop.node loop.name_).getD 0 +
          (loop.loop_end - loop.ori_start - 1) *
            (ctx.offsets.dim_offset_ loop.node loop.name_).getD 0 := by ring
    omega
  | nil =>
    obtain ⟨carrier, carries, rfl⟩ := currentDimRange_below found own call
    have carried := (init.carries carrier dim_name).mp carries.carries
    have offsets := offsets_pos init positive carrier carries.found dim_name carried
    have covered := offsets.range (lastBounds_pos positive carried).2
    simp only [PerfContext.dim_offset_]
    rw [Int.mul_comm]
    omega

/-- The map of a tensor after a call: a range for each of its dimensions, and no other. -/
structure RangesAt (ctx : PerfContext) (node : NodePtr) (loops : List LoopState)
    (skew : String → Int) (dims : List String) (ranges : Table DimRange) : Prop where
  inside : ∀ dim_name ∈ dims, ∃ range,
    currentDimRange ctx (LoopNest.walkAt ctx node loops) skew dim_name = .ok range ∧
      ranges.lookup dim_name = some ⟨dim_name, range.1, range.2⟩
  outside : ∀ dim_name ∉ dims, ranges.lookup dim_name = none

theorem currentTensorMap_eq_ok {name : String} {dims : List String} {after : TensorMap}
    (call : currentTensorMap ctx (LoopNest.walkAt ctx node loops) skew name dims = .ok after) :
    ∃ ranges, after = ⟨name, dims, ranges⟩ ∧ RangesAt ctx node loops skew dims ranges := by
  obtain ⟨ranges, folded, result⟩ := bind_eq_ok.mp call
  cases result
  refine ⟨ranges, rfl, ?_⟩
  refine foldlM_induction folded (fun done ranges => RangesAt ctx node loops skew done ranges) ?_ ?_
  · exact ⟨by simp, by simp⟩
  · rintro done dim_name rest before after _ known step
    obtain ⟨range, computed, result⟩ := bind_eq_ok.mp step
    cases result
    constructor
    · intro name member
      by_cases same : name = dim_name
      · subst same
        exact ⟨range, computed, AList.lookup_insert _⟩
      · have earlier : name ∈ done := by
          rcases List.mem_append.mp member with earlier | last
          · exact earlier
          · exact absurd (List.mem_singleton.mp last) same
        obtain ⟨old, old_computed, at_old⟩ := known.inside name earlier
        exact ⟨old, old_computed, (AList.lookup_insert_ne same).trans at_old⟩
    · intro name absent
      rw [List.mem_append, not_or, List.mem_singleton] at absent
      rw [AList.lookup_insert_ne absent.2, known.outside name absent.1]

structure ChargedAt (ctx : PerfContext) (node : NodePtr) (loops : List LoopState)
    (skew : String → Int) (is_input : Bool) (entry : Sigma fun _ : String => TensorMap)
    (charge : Charge) : Prop where
  tensor_name : charge.tensor_name = entry.1
  before : charge.before = entry.2
  dims : charge.after.tensor_dims_ = entry.2.tensor_dims_
  ranges : RangesAt ctx node loops skew entry.2.tensor_dims_ charge.after.dim_ranges_
  amount : tensorMovement is_input node charge.before charge.after = .ok charge.amount

theorem chargeTensor_eq_ok {is_input : Bool} {entry : Sigma fun _ : String => TensorMap}
    {charge : Charge}
    (call : chargeTensor ctx (LoopNest.walkAt ctx node loops) skew is_input entry = .ok charge) :
    ChargedAt ctx node loops skew is_input entry charge := by
  obtain ⟨after, mapped, call⟩ := bind_eq_ok.mp call
  obtain ⟨amount, moved, result⟩ := bind_eq_ok.mp call
  cases result
  obtain ⟨ranges, rfl, at_ranges⟩ := currentTensorMap_eq_ok mapped
  exact ⟨rfl, rfl, rfl, at_ranges, moved⟩

theorem charges_eq_ok {is_input : Bool} {table : Table TensorMap} {cs : List Charge}
    (call : charges ctx node loops skew is_input table = .ok cs) :
    List.Forall₂ (ChargedAt ctx node loops skew is_input) table.entries cs :=
  (mapM_eq_ok call).imp fun _ _ made => chargeTensor_eq_ok made

theorem exists_entry_of_charge {is_input : Bool} {table : Table TensorMap} {cs : List Charge}
    (call : charges ctx node loops skew is_input table = .ok cs) {charge : Charge}
    (member : charge ∈ cs) :
    ∃ entry ∈ table.entries, ChargedAt ctx node loops skew is_input entry charge := by
  have pairs := charges_eq_ok call
  clear call
  generalize table.entries = entries at pairs ⊢
  induction pairs with
  | nil => cases member
  | @cons entry first entries rest made _ ih =>
    rcases List.mem_cons.mp member with rfl | later
    · exact ⟨entry, List.mem_cons_self, made⟩
    · obtain ⟨found, inside, at_found⟩ := ih later
      exact ⟨found, List.mem_cons_of_mem entry inside, at_found⟩

end TileExp.Analysis
