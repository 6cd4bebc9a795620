import Mathlib.Algebra.BigOperators.Group.Finset.Basic
import Mathlib.Algebra.Order.BigOperators.GroupWithZero.Finset
import Mathlib.Algebra.Order.Ring.Nat
import Mathlib.Tactic.Ring

/-! Loop nests with tails: a loop runs `tail` times while every loop around it with the same key is
    in its last iteration, and `full` times otherwise. -/

structure TailLoop (κ : Type) where
  key : κ
  full : Nat
  tail : Nat

namespace TailLoop

variable {κ : Type} [DecidableEq κ]

def rounds (loop : TailLoop κ) (last : Bool) : Nat := if last then loop.tail else loop.full

def Positive (loop : TailLoop κ) : Prop := 0 < loop.full ∧ 0 < loop.tail

omit [DecidableEq κ] in
theorem Positive.rounds {loop : TailLoop κ} (positive : loop.Positive) (last : Bool) :
    0 < loop.rounds last := by
  cases last
  · exact positive.1
  · exact positive.2

/-- What one iteration leaves of the last iterations: not the last one clears its key. -/
def flags (loop : TailLoop κ) (last : κ → Bool) (i : Nat) : κ → Bool :=
  if i + 1 < loop.rounds (last loop.key) then Function.update last loop.key false else last

def count : List (TailLoop κ) → (κ → Bool) → Nat
  | [], _ => 1
  | loop :: rest, last =>
    ((List.range (loop.rounds (last loop.key))).map fun i => count rest (loop.flags last i)).sum

/-- How often the loops of one key would run alone. -/
def extent (k : κ) : List (TailLoop κ) → Bool → Nat
  | [], _ => 1
  | loop :: rest, last =>
    if loop.key = k then (loop.rounds last - 1) * extent k rest false + extent k rest last
    else extent k rest last

theorem sum_range_last {n : Nat} (positive : 0 < n) (earlier final : Nat) :
    ((List.range n).map fun i => if i + 1 < n then earlier else final).sum =
      (n - 1) * earlier + final := by
  obtain ⟨m, rfl⟩ := Nat.exists_eq_succ_of_ne_zero positive.ne'
  rw [List.range_succ, List.map_append, List.sum_append]
  have front : (List.range m).map (fun i => if i + 1 < m.succ then earlier else final) =
      (List.range m).map fun _ => earlier := by
    refine List.map_congr_left fun i member => ?_
    rw [if_pos (by have := List.mem_range.mp member; omega)]
  rw [front]
  simp

theorem count_cons {loop : TailLoop κ} (positive : loop.Positive) (rest : List (TailLoop κ))
    (last : κ → Bool) :
    count (loop :: rest) last = (loop.rounds (last loop.key) - 1) *
      count rest (Function.update last loop.key false) + count rest last := by
  rw [count, ← sum_range_last (positive.rounds _)]
  congr 1
  refine List.map_congr_left fun i _ => ?_
  rw [flags]
  split <;> rfl

/-- Dimensions are independent: a nest runs as often as the product of its keys' extents. -/
theorem count_eq_prod (loops : List (TailLoop κ)) (positive : ∀ loop ∈ loops, loop.Positive)
    (keys : Finset κ) (known : ∀ loop ∈ loops, loop.key ∈ keys) (last : κ → Bool) :
    count loops last = ∏ k ∈ keys, extent k loops (last k) := by
  induction loops generalizing last with
  | nil => simp [count, extent]
  | cons loop rest ih =>
    have member := known loop List.mem_cons_self
    have inner := ih (fun l inside => positive l (List.mem_cons_of_mem _ inside))
      (fun l inside => known l (List.mem_cons_of_mem _ inside))
    have others (last' : κ → Bool) (same : ∀ k ≠ loop.key, last' k = last k) :
        ∏ k ∈ keys.erase loop.key, extent k rest (last' k) =
          ∏ k ∈ keys.erase loop.key, extent k (loop :: rest) (last k) := by
      refine Finset.prod_congr rfl fun k inside => ?_
      have apart := Finset.ne_of_mem_erase inside
      rw [extent, if_neg apart.symm, same k apart]
    rw [count_cons (positive loop List.mem_cons_self), inner, inner,
      ← Finset.mul_prod_erase keys _ member, ← Finset.mul_prod_erase keys _ member,
      ← Finset.mul_prod_erase keys _ member, others last (fun _ _ => rfl),
      others _ (fun k apart => Function.update_of_ne apart _ _), Function.update_self]
    conv_rhs => rw [extent, if_pos rfl]
    ring

def Runs (k : κ) : List (TailLoop κ) → Bool → Prop
  | [], _ => True
  | loop :: rest, last =>
    if loop.key = k then
      0 < loop.rounds last ∧ (Runs k rest last ∨ (1 < loop.rounds last ∧ Runs k rest false))
    else Runs k rest last

theorem count_cons_pos_iff (loop : TailLoop κ) (rest : List (TailLoop κ)) (last : κ → Bool) :
    0 < count (loop :: rest) last ↔ 0 < loop.rounds (last loop.key) ∧ (0 < count rest last ∨
      (1 < loop.rounds (last loop.key) ∧
        0 < count rest (Function.update last loop.key false))) := by
  rw [count, List.sum_pos_iff_exists_pos_nat]
  simp only [List.mem_map, exists_exists_and_eq_and]
  constructor
  · rintro ⟨i, member, positive⟩
    have bound := List.mem_range.mp member
    refine ⟨by omega, ?_⟩
    rw [flags] at positive
    split at positive
    · exact Or.inr ⟨by omega, positive⟩
    · exact Or.inl positive
  · rintro ⟨some, final | ⟨more, earlier⟩⟩
    · refine ⟨loop.rounds (last loop.key) - 1, List.mem_range.mpr (by omega), ?_⟩
      rw [flags, if_neg (by omega)]
      exact final
    · refine ⟨0, List.mem_range.mpr some, ?_⟩
      rw [flags, if_pos (by omega)]
      exact earlier

theorem count_pos_iff (loops : List (TailLoop κ)) (last : κ → Bool) :
    0 < count loops last ↔ ∀ k, Runs k loops (last k) := by
  induction loops generalizing last with
  | nil => simp [count, Runs]
  | cons loop rest ih =>
    rw [count_cons_pos_iff, ih, ih]
    have others : ∀ k ≠ loop.key, Runs k rest (Function.update last loop.key false k) =
        Runs k rest (last k) := fun k apart => by rw [Function.update_of_ne apart]
    constructor
    · rintro ⟨some, final⟩ k
      rcases eq_or_ne loop.key k with rfl | apart
      · rw [Runs, if_pos rfl]
        refine ⟨some, final.imp (fun all => all loop.key) fun ⟨more, all⟩ => ⟨more, ?_⟩⟩
        simpa using all loop.key
      · rw [Runs, if_neg apart]
        rcases final with all | ⟨_, all⟩
        · exact all k
        · exact others k apart.symm ▸ all k
    · intro all
      have own := all loop.key
      rw [Runs, if_pos rfl] at own
      have rest_runs : ∀ k ≠ loop.key, Runs k rest (last k) := by
        intro k apart
        have here := all k
        rwa [Runs, if_neg apart.symm] at here
      refine ⟨own.1, own.2.imp (fun final k => ?_) fun ⟨more, earlier⟩ => ⟨more, fun k => ?_⟩⟩
      · rcases eq_or_ne k loop.key with rfl | apart
        · exact final
        · exact rest_runs k apart
      · rcases eq_or_ne k loop.key with rfl | apart
        · rwa [Function.update_self]
        · exact (others k apart).symm ▸ rest_runs k apart

theorem extent_pos (k : κ) (loops : List (TailLoop κ)) (last : Bool) : 0 < extent k loops last := by
  induction loops generalizing last with
  | nil => exact Nat.one_pos
  | cons loop rest ih =>
    rw [extent]
    split
    · exact Nat.add_pos_right _ (ih last)
    · exact ih last

def sealed (loop : TailLoop κ) : TailLoop κ := { loop with full := loop.tail }

omit [DecidableEq κ] in
theorem Positive.sealed {loop : TailLoop κ} (positive : loop.Positive) : loop.sealed.Positive :=
  ⟨positive.2, positive.2⟩

variable {outer inner : List (TailLoop κ)}

theorem extent_cons_false {k : κ} {loop : TailLoop κ} (positive : loop.Positive)
    (same : loop.key = k) (rest : List (TailLoop κ)) :
    extent k (loop :: rest) false = loop.full * extent k rest false := by
  obtain ⟨n, bound⟩ := Nat.exists_eq_succ_of_ne_zero positive.1.ne'
  rw [extent, if_pos same, rounds, if_neg Bool.false_ne_true, bound, Nat.succ_sub_one, Nat.succ_mul]

theorem extent_sealed_false (positive : ∀ loop ∈ outer, loop.Positive)
    (bounded : ∀ loop ∈ outer, loop.tail ≤ loop.full) (k : κ) :
    extent k (outer.map sealed ++ inner) false ≤ extent k (outer ++ inner) false ∧
      (extent k (outer.map sealed ++ inner) false = extent k (outer ++ inner) false ↔
        ∀ loop ∈ outer, loop.key = k → loop.full = loop.tail) := by
  induction outer with
  | nil => simp
  | cons loop rest ih =>
    obtain ⟨below, exact_iff⟩ := ih (fun l inside => positive l (List.mem_cons_of_mem _ inside))
      (fun l inside => bounded l (List.mem_cons_of_mem _ inside))
    have head := positive loop List.mem_cons_self
    have small := bounded loop List.mem_cons_self
    rw [List.map_cons, List.cons_append, List.cons_append]
    by_cases same : loop.key = k
    · rw [extent_cons_false head.sealed same, extent_cons_false head same]
      have low := extent_pos k (rest.map sealed ++ inner) false
      refine ⟨Nat.mul_le_mul small below, ?_⟩
      rw [List.forall_mem_cons, ← exact_iff]
      constructor
      · intro equal
        have tails : loop.full = loop.tail := by
          by_contra differ
          have strict : loop.tail < loop.full := lt_of_le_of_ne small (Ne.symm differ)
          exact absurd equal (Nat.mul_lt_mul_of_lt_of_le strict below (low.trans_le below)).ne
        refine ⟨fun _ => tails, ?_⟩
        rw [tails] at equal
        exact Nat.eq_of_mul_eq_mul_left head.2 equal
      · rintro ⟨tails, equal⟩
        rw [equal, tails same]
        rfl
    · rw [extent, if_neg (show loop.sealed.key ≠ k from same), extent, if_neg same,
        List.forall_mem_cons]
      exact ⟨below, exact_iff.trans ⟨fun rest => ⟨fun key => absurd key same, rest⟩, And.right⟩⟩

theorem extent_sealed_true (positive : ∀ loop ∈ outer, loop.Positive)
    (bounded : ∀ loop ∈ outer, loop.tail ≤ loop.full) (k : κ) :
    extent k (outer.map sealed ++ inner) true ≤ extent k (outer ++ inner) true ∧
      (extent k (outer.map sealed ++ inner) true = extent k (outer ++ inner) true ↔
        outer.Pairwise fun a b => a.key = k → b.key = k → 1 < a.tail → b.full = b.tail) := by
  induction outer with
  | nil => simp
  | cons loop rest ih =>
    obtain ⟨below, exact_iff⟩ := ih (fun l inside => positive l (List.mem_cons_of_mem _ inside))
      (fun l inside => bounded l (List.mem_cons_of_mem _ inside))
    obtain ⟨below_false, exact_false⟩ := extent_sealed_false
      (fun l inside => positive l (List.mem_cons_of_mem loop inside))
      (fun l inside => bounded l (List.mem_cons_of_mem loop inside)) k
    have head := positive loop List.mem_cons_self
    rw [List.map_cons, List.cons_append, List.cons_append, extent, extent, List.pairwise_cons,
      ← exact_iff]
    by_cases same : loop.key = k
    · rw [if_pos (show loop.sealed.key = k from same), if_pos same]
      change (loop.tail - 1) * _ + _ ≤ (loop.tail - 1) * _ + _ ∧
        ((loop.tail - 1) * _ + _ = (loop.tail - 1) * _ + _ ↔ _)
      have scaled := Nat.mul_le_mul_left (loop.tail - 1) below_false
      refine ⟨Nat.add_le_add scaled below, ?_⟩
      constructor
      · intro equal
        have both : (loop.tail - 1) * extent k (rest.map sealed ++ inner) false =
            (loop.tail - 1) * extent k (rest ++ inner) false := by omega
        refine ⟨fun b inside _ key more => ?_, by omega⟩
        exact exact_false.mp (Nat.eq_of_mul_eq_mul_left (by omega) both) b inside key
      · rintro ⟨pairs, equal⟩
        rw [equal]
        by_cases more : 1 < loop.tail
        · rw [exact_false.mpr fun b inside key => pairs b inside same key more]
        · rw [show loop.tail - 1 = 0 by omega, Nat.zero_mul, Nat.zero_mul]
    · rw [if_neg (show loop.sealed.key ≠ k from same), if_neg same]
      refine ⟨below, ⟨fun equal => ⟨fun b _ key => absurd key same, equal⟩, And.right⟩⟩

omit [DecidableEq κ] in
theorem prod_eq_prod_iff {keys : Finset κ} {f g : κ → Nat} (positive : ∀ k ∈ keys, 0 < f k)
    (below : ∀ k ∈ keys, f k ≤ g k) :
    ∏ k ∈ keys, f k = ∏ k ∈ keys, g k ↔ ∀ k ∈ keys, f k = g k := by
  refine ⟨fun equal k member => ?_, fun equal => Finset.prod_congr rfl equal⟩
  by_contra differ
  have strict := Finset.prod_lt_prod positive below
    ⟨k, member, lt_of_le_of_ne (below k member) differ⟩
  exact strict.ne equal

/-- Sealing the outer loops keeps the count exactly when no sealed loop is inside a loop of its key
    that runs more than once. -/
theorem count_sealed_iff (outer_positive : ∀ loop ∈ outer, loop.Positive)
    (inner_positive : ∀ loop ∈ inner, loop.Positive)
    (bounded : ∀ loop ∈ outer, loop.tail ≤ loop.full) (keys : Finset κ)
    (known : ∀ loop ∈ outer ++ inner, loop.key ∈ keys) :
    count (outer.map sealed ++ inner) (fun _ => true) =
        ∏ k ∈ keys, extent k (outer ++ inner) true ↔
      outer.Pairwise fun a b => a.key = b.key → 1 < a.tail → b.full = b.tail := by
  rw [count_eq_prod _ _ keys]
  · rw [prod_eq_prod_iff (fun k _ => extent_pos k _ _)
      (fun k _ => (extent_sealed_true outer_positive bounded k).1)]
    constructor
    · intro equal
      rw [List.pairwise_iff_getElem]
      intro i j first second order key more
      have member := known outer[i] (List.mem_append_left _ (List.getElem_mem first))
      have pairs := (extent_sealed_true outer_positive bounded _).2.mp (equal _ member)
      exact List.pairwise_iff_getElem.mp pairs i j first second order rfl key.symm more
    · intro pairs k _
      refine (extent_sealed_true outer_positive bounded k).2.mpr (pairs.imp ?_)
      intro a b rule first second more
      exact rule (first.trans second.symm) more
  · intro loop member
    rcases List.mem_append.mp member with sealed_loop | member
    · obtain ⟨original, inside, rfl⟩ := List.mem_map.mp sealed_loop
      exact known original (List.mem_append_left _ inside)
    · exact known loop (List.mem_append_right _ member)
  · intro loop member
    rcases List.mem_append.mp member with sealed_loop | member
    · obtain ⟨original, inside, rfl⟩ := List.mem_map.mp sealed_loop
      exact (outer_positive original inside).sealed
    · exact inner_positive loop member

end TailLoop
