import Mathlib.Algebra.BigOperators.Group.List.Basic
import Mathlib.Algebra.Order.Ring.Int
import Mathlib.Tactic.Ring

/-! Mixed-radix numbers whose digits have a shorter range while all digits before are at their
    last value: `tail` values then, and `full` otherwise. -/

structure TailRadix where
  full : Int
  tail : Int

namespace TailRadix

structure Proper (digit : TailRadix) : Prop where
  positive : 1 ≤ digit.tail
  bounded : digit.tail ≤ digit.full

def rounds (digit : TailRadix) (last : Bool) : Int := if last then digit.tail else digit.full

def weight (digits : List TailRadix) : Int := (digits.map full).prod

/-- How many numbers the digits make at the end of the number line. -/
def extent : List TailRadix → Int
  | [] => 1
  | digit :: rest => (digit.tail - 1) * weight rest + extent rest

/-- How many numbers the digits make, given whether all digits before are at their last value. -/
def block (digits : List TailRadix) (last : Bool) : Int :=
  if last then extent digits else weight digits

def stays (digit : TailRadix) (last : Bool) (i : Int) : Bool := last && decide (digit.rounds last ≤ i + 1)

variable {digit : TailRadix} {digits rest : List TailRadix} {last : Bool} {i j : Int}

@[simp] theorem weight_nil : weight [] = 1 := rfl

@[simp] theorem weight_cons (digit : TailRadix) (rest : List TailRadix) :
    weight (digit :: rest) = digit.full * weight rest := by
  rw [weight, List.map_cons, List.prod_cons, weight]

theorem weight_append (a b : List TailRadix) : weight (a ++ b) = weight a * weight b := by
  rw [weight, List.map_append, List.prod_append, weight, weight]

theorem weight_pos (proper : ∀ digit ∈ digits, digit.Proper) : 1 ≤ weight digits := by
  induction digits with
  | nil => exact Int.le_refl 1
  | cons digit rest ih =>
    have head := proper digit List.mem_cons_self
    have positive := head.positive
    have bounded := head.bounded
    have tail := ih fun d inside => proper d (List.mem_cons_of_mem digit inside)
    rw [weight_cons]
    exact Int.le_trans tail (le_mul_of_one_le_left (by omega) (by omega))

theorem extent_pos (proper : ∀ digit ∈ digits, digit.Proper) : 1 ≤ extent digits := by
  induction digits with
  | nil => exact Int.le_refl 1
  | cons digit rest ih =>
    have inner : ∀ d ∈ rest, d.Proper := fun d inside => proper d (List.mem_cons_of_mem digit inside)
    have positive := (proper digit List.mem_cons_self).positive
    have skipped : 0 ≤ (digit.tail - 1) * weight rest :=
      Int.mul_nonneg (by omega) (by have := weight_pos inner; omega)
    have tail := ih inner
    rw [extent]
    omega

theorem extent_le_weight (proper : ∀ digit ∈ digits, digit.Proper) :
    extent digits ≤ weight digits := by
  induction digits with
  | nil => exact Int.le_refl 1
  | cons digit rest ih =>
    have inner : ∀ d ∈ rest, d.Proper := fun d inside => proper d (List.mem_cons_of_mem digit inside)
    have bounded := (proper digit List.mem_cons_self).bounded
    have positive := weight_pos inner
    have tail := ih inner
    have steps : (digit.tail - 1) * weight rest ≤ (digit.full - 1) * weight rest :=
      Int.mul_le_mul_of_nonneg_right (by omega) (by omega)
    have whole : digit.full * weight rest = (digit.full - 1) * weight rest + weight rest := by ring
    rw [extent, weight_cons]
    omega

/-- No range is shorter exactly when the end of the number line is like the rest of it. -/
theorem extent_eq_weight_iff (proper : ∀ digit ∈ digits, digit.Proper) :
    extent digits = weight digits ↔ ∀ digit ∈ digits, digit.tail = digit.full := by
  induction digits with
  | nil => simp [extent]
  | cons digit rest ih =>
    have inner : ∀ d ∈ rest, d.Proper := fun d inside => proper d (List.mem_cons_of_mem digit inside)
    have bounded := (proper digit List.mem_cons_self).bounded
    have positive := weight_pos inner
    have shorter := extent_le_weight inner
    have whole : digit.full * weight rest = (digit.full - 1) * weight rest + weight rest := by ring
    rw [List.forall_mem_cons, ← ih inner, extent, weight_cons, whole]
    constructor
    · intro same
      have steps : (digit.tail - 1) * weight rest ≤ (digit.full - 1) * weight rest :=
        Int.mul_le_mul_of_nonneg_right (by omega) (by omega)
      have equal : (digit.tail - 1) * weight rest = (digit.full - 1) * weight rest := by omega
      have heads := Int.eq_of_mul_eq_mul_right (by omega) equal
      exact ⟨by omega, by omega⟩
    · rintro ⟨heads, tails⟩
      rw [heads, tails]

theorem block_pos (proper : ∀ digit ∈ digits, digit.Proper) (last : Bool) : 1 ≤ block digits last := by
  cases last
  · exact weight_pos proper
  · exact extent_pos proper

theorem extent_le_block (proper : ∀ digit ∈ digits, digit.Proper) (last : Bool) :
    extent digits ≤ block digits last := by
  cases last
  · exact extent_le_weight proper
  · exact Int.le_refl _

theorem extent_eq_block_iff (proper : ∀ digit ∈ digits, digit.Proper) :
    extent digits = block digits last ↔ last = true ∨ ∀ digit ∈ digits, digit.tail = digit.full := by
  cases last
  · rw [← extent_eq_weight_iff proper]
    exact ⟨Or.inr, fun same => same.resolve_left Bool.false_ne_true⟩
  · exact ⟨fun _ => Or.inl rfl, fun _ => rfl⟩

theorem block_le_weight (proper : ∀ digit ∈ digits, digit.Proper) (last : Bool) :
    block digits last ≤ weight digits := by
  cases last
  · exact Int.le_refl _
  · exact extent_le_weight proper

theorem block_cons (digit : TailRadix) (rest : List TailRadix) (last : Bool) :
    block (digit :: rest) last = (digit.rounds last - 1) * weight rest + block rest last := by
  cases last
  · simp only [block, rounds, Bool.false_eq_true, if_false, weight_cons]
    ring
  · rfl

theorem stays_of_last (at_end : digit.rounds last ≤ i + 1) : digit.stays last i = last := by
  rw [stays, decide_eq_true at_end, Bool.and_true]

theorem stays_of_more (more : i + 1 < digit.rounds last) : digit.stays last i = false := by
  rw [stays, decide_eq_false (by omega), Bool.and_false]

theorem sub_block_last (at_end : i + 1 = digit.rounds last) :
    i * weight rest + block rest (digit.stays last i) = block (digit :: rest) last := by
  rw [stays_of_last (by omega), block_cons]
  congr 2
  omega

theorem sub_block_more (proper : ∀ d ∈ rest, d.Proper) (more : i + 1 < digit.rounds last) :
    (i + 1) * weight rest + block rest last ≤ block (digit :: rest) last := by
  have positive := weight_pos proper
  rw [block_cons]
  have steps : (i + 1) * weight rest ≤ (digit.rounds last - 1) * weight rest :=
    Int.mul_le_mul_of_nonneg_right (by omega) (by omega)
  omega

theorem sub_block_le (proper : ∀ d ∈ rest, d.Proper) (bound : i < digit.rounds last) :
    i * weight rest + block rest (digit.stays last i) ≤ block (digit :: rest) last := by
  by_cases at_end : i + 1 = digit.rounds last
  · exact Int.le_of_eq (sub_block_last at_end)
  · have room := sub_block_more (i := i) proper (show i + 1 < digit.rounds last by omega)
    have inner := block_le_weight proper (digit.stays last i)
    have positive := block_pos proper last
    have next : (i + 1) * weight rest = i * weight rest + weight rest := by ring
    omega

theorem sub_block_apart (proper : ∀ d ∈ rest, d.Proper) (order : i < j) :
    i * weight rest + block rest (digit.stays last i) ≤ j * weight rest := by
  have inner := block_le_weight proper (digit.stays last i)
  have positive := weight_pos proper
  have steps : (i + 1) * weight rest ≤ j * weight rest :=
    Int.mul_le_mul_of_nonneg_right (by omega) (by omega)
  have next : (i + 1) * weight rest = i * weight rest + weight rest := by ring
  omega

theorem exists_sub_block (proper : ∀ d ∈ rest, d.Proper) (digit_proper : digit.Proper) {x : Int}
    (nonneg : 0 ≤ x) (inside : x < block (digit :: rest) last) :
    ∃ i, 0 ≤ i ∧ i < digit.rounds last ∧ i * weight rest ≤ x ∧
      x < i * weight rest + block rest (digit.stays last i) := by
  have positive := weight_pos proper
  have some : 1 ≤ digit.rounds last := by
    have tail := digit_proper.positive
    have full := digit_proper.bounded
    unfold rounds
    split <;> omega
  rw [block_cons] at inside
  by_cases beyond : (digit.rounds last - 1) * weight rest ≤ x
  · refine ⟨digit.rounds last - 1, by omega, by omega, beyond, ?_⟩
    rw [stays_of_last (by omega)]
    exact inside
  · have quotient : x / weight rest < digit.rounds last - 1 :=
      Int.ediv_lt_of_lt_mul (by omega) (by omega)
    have low := Int.ediv_mul_le x (show weight rest ≠ 0 by omega)
    have high := Int.lt_ediv_add_one_mul_self x (show 0 < weight rest by omega)
    refine ⟨x / weight rest, Int.ediv_nonneg nonneg (by omega), by omega, low, ?_⟩
    rw [stays_of_more (by omega)]
    have next : (x / weight rest + 1) * weight rest = x / weight rest * weight rest + weight rest := by
      ring
    simp only [block, Bool.false_eq_true, if_false]
    omega

end TailRadix
