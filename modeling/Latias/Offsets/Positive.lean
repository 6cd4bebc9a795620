import Latias.Offsets.InitOffsets
import Mathlib.Algebra.Order.Ring.Int
import Mathlib.Tactic.Positivity

/-! Offsets of loops that all run at least once. -/

namespace TileExp.Analysis

/-- Every loop of the tree runs at least once, with and without its tail. -/
def Evaluator.PositiveBounds (ev : Evaluator) : Prop :=
  ∀ node ∈ Rose.postorder [] ev.root_, ∀ loop ∈ ev.loopnests_ node,
    1 ≤ loop.end_ ∧ 1 ≤ loop.residual_end

instance (ev : Evaluator) : Decidable ev.PositiveBounds :=
  inferInstanceAs (Decidable (∀ node ∈ Rose.postorder [] ev.root_, _))

variable {ev : Evaluator} {offsets : EvaOffsets} {node : NodePtr} {dim_name : String}

theorem Evaluator.PositiveBounds.at (positive : ev.PositiveBounds) {loop : Descriptor}
    (member : loop ∈ ev.loopnests_ node) : 1 ≤ loop.end_ ∧ 1 ≤ loop.residual_end := by
  cases found : ev.root_.get? node with
  | none =>
    rw [Evaluator.loopnests_, Evaluator.ori_node_, found] at member
    cases member
  | some sub =>
    exact positive node (InitAnalysis.mem_positions.mpr (by rw [found]; rfl)) loop member

structure PositiveOffsets (offsets : EvaOffsets) (node : NodePtr) (dim_name : String) : Prop where
  dim_offset_ : 1 ≤ (offsets.dim_offset_ node dim_name).getD 0
  last_dim_offset_ : 1 ≤ (offsets.last_dim_offset_ node dim_name).getD 0

theorem PositiveOffsets.range (positive : PositiveOffsets offsets node dim_name) {bound : Int}
    (running : 1 ≤ bound) : 1 ≤ (bound - 1) * (offsets.dim_offset_ node dim_name).getD 0 +
      (offsets.last_dim_offset_ node dim_name).getD 0 := by
  have first := positive.dim_offset_
  have last := positive.last_dim_offset_
  have product : 0 ≤ (bound - 1) * (offsets.dim_offset_ node dim_name).getD 0 :=
    Int.mul_nonneg (by omega) (by omega)
  omega

theorem lastBounds_pos (positive : ev.PositiveBounds) (member : dim_name ∈ ev.dims node) :
    1 ≤ (lastBounds (ev.loopnests_ node) dim_name).1 ∧
      1 ≤ (lastBounds (ev.loopnests_ node) dim_name).2 := by
  obtain ⟨loop, inside, _, bounds⟩ := exists_lastBounds (ev.loopnests_ node) member
  rw [bounds]
  exact positive.at inside

theorem offsets_pos (init : InitAnalysis.OffsetsInit ev offsets) (positive : ev.PositiveBounds)
    (node : NodePtr) (found : (ev.root_.get? node).isSome) :
    ∀ dim_name ∈ ev.dims node, PositiveOffsets offsets node dim_name := by
  refine Evaluator.below_induction (fun node found below dim_name member => ?_) node found
  have settled := init.settled node found
  by_cases leaf : (ev.ori_node_ node).children = []
  · obtain ⟨dim, last⟩ := settled.leaf leaf dim_name member
    exact ⟨by rw [dim]; exact Int.le_refl 1, by rw [last]; exact Int.le_refl 1⟩
  · obtain ⟨pair, call, value⟩ := settled.inner leaf dim_name member
    have tops : ∀ top ∈ ev.get_children node, (ev.root_.get? top).isSome := by
      intro top child
      obtain ⟨i, rfl, inside⟩ := (mem_get_children found).mp child
      exact inside
    obtain ⟨top, child, carrier_node, carrier, rfl⟩ := firstChildOffset_eq_some tops call
    obtain ⟨i, rfl, _⟩ := (mem_get_children found).mp child
    have carried : dim_name ∈ ev.dims carrier_node :=
      (init.carries carrier_node dim_name).mp carrier.carries
    have under : node <:+ carrier_node := (List.suffix_cons i node).trans carrier.under
    have apart : carrier_node ≠ node := by
      rintro rfl
      exact absurd carrier.under.length_le (by simp)
    have inner := below carrier_node under apart carrier.found dim_name carried
    have bounds := lastBounds_pos positive carried
    constructor
    · rw [value.dim_offset_]
      exact Int.mul_le_mul bounds.1 inner.dim_offset_ (by omega) (by omega)
    · rw [value.last_dim_offset_]
      exact inner.range bounds.2

end TileExp.Analysis
