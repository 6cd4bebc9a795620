import Mathlib.Algebra.BigOperators.Intervals
import Mathlib.Algebra.BigOperators.Ring.Finset
import Mathlib.Algebra.Order.BigOperators.Group.Finset
import Mathlib.Algebra.Order.Ring.Int
import Mathlib.Tactic.Ring
import Mathlib.Tactic.Linarith

/-! Numbers that are worked off in rounds of a fixed width. A round takes as long as its slowest
    number, or as long as the slowest number so far. -/

namespace Rounds

variable {α : Type} {l l' : List Int} {width rounds i g : Nat}

def peak (l : List Int) : Int := l.foldr max 0

@[simp] theorem peak_nil : peak [] = 0 := rfl

@[simp] theorem peak_cons (n : Int) (l : List Int) : peak (n :: l) = max n (peak l) := rfl

theorem peak_nonneg (l : List Int) : 0 ≤ peak l := by
  induction l with
  | nil => exact Int.le_refl 0
  | cons n l ih =>
    rw [peak_cons]
    omega

theorem peak_append (l l' : List Int) : peak (l ++ l') = max (peak l) (peak l') := by
  induction l with
  | nil =>
    have positive := peak_nonneg l'
    rw [List.nil_append, peak_nil]
    omega
  | cons n l ih => rw [List.cons_append, peak_cons, ih, peak_cons, max_assoc]

theorem le_peak {n : Int} (member : n ∈ l) : n ≤ peak l := by
  induction l with
  | nil => cases member
  | cons m l ih =>
    rw [peak_cons]
    rcases List.mem_cons.mp member with rfl | later
    · exact le_max_left _ _
    · exact le_trans (ih later) (le_max_right _ _)

theorem peak_le {bound : Int} (positive : 0 ≤ bound) (below : ∀ n ∈ l, n ≤ bound) :
    peak l ≤ bound := by
  induction l with
  | nil => exact positive
  | cons m l ih =>
    obtain ⟨here, rest⟩ := List.forall_mem_cons.mp below
    exact max_le here (ih rest)

theorem peak_of_zeros (zeros : ∀ n ∈ l, n = 0) : peak l = 0 :=
  Int.le_antisymm (peak_le (Int.le_refl 0) fun n member => Int.le_of_eq (zeros n member))
    (peak_nonneg l)

theorem peak_mono (above : List.Forall₂ (· ≤ ·) l l') : peak l ≤ peak l' := by
  induction above with
  | nil => exact Int.le_refl 0
  | cons here _ ih =>
    rw [peak_cons, peak_cons]
    exact max_le_max here ih

theorem peak_le_sum (nonneg : ∀ n ∈ l, 0 ≤ n) : peak l ≤ l.sum := by
  induction l with
  | nil => exact Int.le_refl 0
  | cons m l ih =>
    obtain ⟨here, rest⟩ := List.forall_mem_cons.mp nonneg
    have tail := ih rest
    have positive := peak_nonneg l
    rw [peak_cons, List.sum_cons]
    omega

theorem sum_le_length_mul_peak (l : List Int) : l.sum ≤ l.length * peak l := by
  induction l with
  | nil => simp
  | cons m l ih =>
    have here : m ≤ max m (peak l) := le_max_left _ _
    have scaled : (l.length : Int) * peak l ≤ l.length * max m (peak l) :=
      Int.mul_le_mul_of_nonneg_left (le_max_right _ _) (Int.natCast_nonneg _)
    rw [List.sum_cons, peak_cons, List.length_cons]
    push_cast
    linarith

theorem sum_nonpos (nonpos : ∀ n ∈ l, n ≤ 0) : l.sum ≤ 0 := by
  simpa using List.sum_le_card_nsmul l 0 nonpos

theorem sum_neg {n : Int} (nonpos : ∀ n ∈ l, n ≤ 0) (member : n ∈ l) (negative : n < 0) :
    l.sum < 0 := by
  obtain ⟨before, after, rfl⟩ := List.append_of_mem member
  have first : before.sum ≤ 0 := sum_nonpos fun m inside => nonpos m (by simp [inside])
  have last : after.sum ≤ 0 := sum_nonpos fun m inside => nonpos m (by simp [inside])
  rw [List.sum_append, List.sum_cons]
  omega

def round (width i : Nat) (l : List α) : List α := (l.drop (i * width)).take width

def upTo (width i : Nat) (l : List α) : List α := l.take ((i + 1) * width)

/-- How many rounds a number of items takes. -/
def count (n width : Nat) : Nat := (n + width - 1) / width

theorem le_count_mul (n : Nat) (positive : width ≠ 0) : n ≤ count n width * width := by
  have division := Nat.div_add_mod (n + width - 1) width
  have remainder := Nat.mod_lt (n + width - 1) (Nat.pos_of_ne_zero positive)
  rw [Nat.mul_comm] at division
  unfold count
  omega

theorem round_start_lt {n : Nat} (positive : width ≠ 0) (bound : i < count n width) :
    i * width < n := by
  have division := Nat.div_mul_le_self (n + width - 1) width
  have next : (i + 1) * width ≤ count n width * width := Nat.mul_le_mul_right width bound
  unfold count at next
  rw [Nat.add_mul, Nat.one_mul] at next
  omega

theorem take_succ_mul (width i : Nat) (l : List α) :
    l.take ((i + 1) * width) = l.take (i * width) ++ round width i l := by
  rw [round, Nat.add_mul, Nat.one_mul, List.take_add]

theorem map_round {β : Type} (f : α → β) (width i : Nat) (l : List α) :
    (round width i l).map f = round width i (l.map f) := by
  rw [round, round, List.map_take, List.map_drop]

theorem mem_of_mem_round {a : α} {l : List α} (member : a ∈ round width i l) : a ∈ l :=
  List.mem_of_mem_drop (List.mem_of_mem_take member)

theorem sum_rounds (width rounds : Nat) (l : List Int) :
    ∑ i ∈ Finset.range rounds, (round width i l).sum = (l.take (rounds * width)).sum := by
  induction rounds with
  | zero => simp
  | succ rounds ih => rw [Finset.sum_range_succ, ih, take_succ_mul, List.sum_append]

theorem flatten_rounds (positive : width ≠ 0) (l : List α) :
    ((List.range (count l.length width)).map fun i => round width i l).flatten = l := by
  have first : ∀ n, ((List.range n).map fun i => round width i l).flatten = l.take (n * width) := by
    intro n
    induction n with
    | zero => simp
    | succ n ih => simp [List.range_succ, ih, take_succ_mul]
  rw [first, List.take_of_length_le (le_count_mul l.length positive)]

theorem exists_place {a : α} {l : List α} (member : a ∈ round width i l) :
    ∃ j, l[j]? = some a ∧ i * width ≤ j ∧ j < (i + 1) * width := by
  obtain ⟨k, found⟩ := List.mem_iff_getElem?.mp member
  rw [round, List.getElem?_take] at found
  split at found
  · next short =>
    rw [List.getElem?_drop] at found
    refine ⟨i * width + k, found, Nat.le_add_right _ _, ?_⟩
    rw [Nat.add_mul, Nat.one_mul]
    omega
  · cases found

theorem mem_round (positive : width ≠ 0) {j : Nat} {a : α} {l : List α} (found : l[j]? = some a) :
    a ∈ round width (j / width) l := by
  have split := Nat.div_add_mod j width
  have inside := Nat.mod_lt j (Nat.pos_of_ne_zero positive)
  rw [Nat.mul_comm] at split
  apply List.mem_of_getElem? (i := j % width)
  rw [round, List.getElem?_take_of_lt inside, List.getElem?_drop, split, found]

theorem div_lt_count {n j : Nat} (positive : width ≠ 0) (bound : j < n) : j / width < count n width := by
  apply (Nat.div_lt_iff_lt_mul (Nat.pos_of_ne_zero positive)).mpr
  exact Nat.lt_of_lt_of_le bound (le_count_mul n positive)

/-! Rounds that each take as long as their slowest number. -/

def slowest (width rounds : Nat) (l : List Int) : Int :=
  ∑ i ∈ Finset.range rounds, peak (round width i l)

theorem peak_round_le_slowest (l : List Int) (bound : i < rounds) :
    peak (round width i l) ≤ slowest width rounds l :=
  Finset.single_le_sum (f := fun i => peak (round width i l))
    (fun _ _ => peak_nonneg _) (Finset.mem_range.mpr bound)

theorem slowest_mono (above : List.Forall₂ (· ≤ ·) l l') (width rounds : Nat) :
    slowest width rounds l ≤ slowest width rounds l' := by
  apply Finset.sum_le_sum
  intro i _
  apply peak_mono
  exact List.forall₂_take width (List.forall₂_drop (i * width) above)

theorem le_slowest (positive : width ≠ 0) (l : List Int) :
    peak l ≤ slowest width (count l.length width) l := by
  apply peak_le (Finset.sum_nonneg fun _ _ => peak_nonneg _)
  intro n member
  obtain ⟨j, bound, rfl⟩ := List.getElem_of_mem member
  have inside := mem_round positive (List.getElem?_eq_getElem bound)
  exact le_trans (le_peak inside) (peak_round_le_slowest l (div_lt_count positive bound))

theorem take_count (positive : width ≠ 0) (l : List α) :
    l.take (count l.length width * width) = l :=
  List.take_of_length_le (le_count_mul l.length positive)

theorem slowest_le_sum (positive : width ≠ 0) (nonneg : ∀ n ∈ l, 0 ≤ n) :
    slowest width (count l.length width) l ≤ l.sum := by
  calc slowest width (count l.length width) l
      ≤ ∑ i ∈ Finset.range (count l.length width), (round width i l).sum :=
        Finset.sum_le_sum fun i _ => peak_le_sum fun n member => nonneg n (mem_of_mem_round member)
    _ = l.sum := by rw [sum_rounds, take_count positive]

theorem sum_le_width_mul_slowest (positive : width ≠ 0) (l : List Int) :
    l.sum ≤ width * slowest width (count l.length width) l := by
  have each : ∀ i ∈ Finset.range (count l.length width),
      (round width i l).sum ≤ width * peak (round width i l) := by
    intro i _
    have short : ((round width i l).length : Int) ≤ width := by
      exact_mod_cast List.length_take_le width (l.drop (i * width))
    exact le_trans (sum_le_length_mul_peak _)
      (Int.mul_le_mul_of_nonneg_right short (peak_nonneg _))
  calc l.sum = ∑ i ∈ Finset.range (count l.length width), (round width i l).sum := by
        rw [sum_rounds, take_count positive]
    _ ≤ ∑ i ∈ Finset.range (count l.length width), width * peak (round width i l) :=
        Finset.sum_le_sum each
    _ = width * slowest width (count l.length width) l := by rw [slowest, Finset.mul_sum]

theorem slowest_of_equal (positive : width ≠ 0) {c : Int} (nonneg : 0 ≤ c)
    (equal : ∀ n ∈ l, n = c) :
    slowest width (count l.length width) l = count l.length width * c := by
  have each : ∀ i ∈ Finset.range (count l.length width), peak (round width i l) = c := by
    intro i bound
    have start := round_start_lt positive (Finset.mem_range.mp bound)
    have inside : l[i * width] ∈ round width i l := by
      have here := mem_round positive (List.getElem?_eq_getElem start)
      rwa [Nat.mul_div_cancel i (Nat.pos_of_ne_zero positive)] at here
    apply Int.le_antisymm
    · exact peak_le nonneg fun n member => Int.le_of_eq (equal n (mem_of_mem_round member))
    · rw [← equal _ (List.getElem_mem start)]
      exact le_peak inside
  rw [slowest, Finset.sum_congr rfl each, Finset.sum_const, Finset.card_range, nsmul_eq_mul]

/-! Rounds weighted by the rounds that are left, with a step of `width` per round. -/

def weight (width rounds i : Nat) : Int := rounds - i * width

theorem sum_weights (width rounds g : Nat) (bound : g ≤ rounds) :
    2 * ∑ i ∈ Finset.Ico g rounds, weight width rounds i =
      (rounds - g) * (2 * rounds - width * (g + rounds - 1)) := by
  have general : ∀ n : Nat, 2 * ∑ i ∈ Finset.Ico g (g + n), weight width rounds i =
      n * (2 * rounds - width * (2 * g + n - 1)) := by
    intro n
    induction n with
    | zero => simp
    | succ n ih =>
      rw [← Nat.add_assoc, Finset.sum_Ico_succ_top (Nat.le_add_right g n), Int.mul_add, ih, weight]
      push_cast
      ring
  have length : g + (rounds - g) = rounds := Nat.add_sub_cancel' bound
  have here := general (rounds - g)
  rw [length] at here
  rw [here]
  push_cast [Nat.cast_sub bound]
  ring

theorem weight_nonneg (last : g < rounds) (enough : width * (g + rounds - 1) ≤ 2 * rounds)
    (before : i ≤ g) : 0 ≤ weight width rounds i := by
  have step : i * width ≤ g * width := Nat.mul_le_mul_right width before
  have twice : width * (g + g) ≤ width * (g + rounds - 1) := Nat.mul_le_mul_left width (by omega)
  have half : g * width ≤ rounds := by
    rw [Nat.mul_add, Nat.mul_comm width g] at twice
    omega
  have cast : ((i * width : Nat) : Int) ≤ rounds := by exact_mod_cast Nat.le_trans step half
  rw [weight]
  push_cast at cast
  omega

theorem sum_weights_nonneg (last : g < rounds) (enough : width * (g + rounds - 1) ≤ 2 * rounds) :
    0 ≤ ∑ i ∈ Finset.Ico g rounds, weight width rounds i := by
  have twice := sum_weights width rounds g (Nat.le_of_lt last)
  have cast : (width : Int) * (g + rounds - 1) ≤ 2 * rounds := by
    have natural : ((width * (g + rounds - 1) : Nat) : Int) ≤ 2 * rounds := by exact_mod_cast enough
    rw [Nat.cast_mul, Nat.cast_sub (by omega)] at natural
    push_cast at natural
    exact natural
  have product : 0 ≤ ((rounds : Int) - g) * (2 * rounds - width * (g + rounds - 1)) :=
    Int.mul_nonneg (by omega) (by omega)
  omega

theorem sum_weights_neg (last : g < rounds) (short : 2 * rounds < width * (g + rounds - 1)) :
    ∑ i ∈ Finset.Ico g rounds, weight width rounds i < 0 := by
  have twice := sum_weights width rounds g (Nat.le_of_lt last)
  have cast : 2 * (rounds : Int) < width * (g + rounds - 1) := by
    have natural : 2 * (rounds : Int) < ((width * (g + rounds - 1) : Nat) : Int) := by
      exact_mod_cast short
    rw [Nat.cast_mul, Nat.cast_sub (by omega)] at natural
    push_cast at natural
    exact natural
  have product : ((rounds : Int) - g) * (2 * rounds - width * (g + rounds - 1)) < 0 :=
    Int.mul_neg_of_pos_of_neg (by omega) (by omega)
  omega

/-- A weighted sum whose terms stay the same from the last round that counts. -/
theorem weighted_nonneg {D : Nat → Int} (nonneg : ∀ i, 0 ≤ D i) (last : g < rounds)
    (enough : width * (g + rounds - 1) ≤ 2 * rounds)
    (settled : ∀ i, g ≤ i → i < rounds → D i = D g) :
    0 ≤ ∑ i ∈ Finset.range rounds, D i * weight width rounds i := by
  rw [← Finset.sum_range_add_sum_Ico _ (Nat.le_of_lt last)]
  have first : 0 ≤ ∑ i ∈ Finset.range g, D i * weight width rounds i := by
    apply Finset.sum_nonneg
    intro i bound
    exact Int.mul_nonneg (nonneg i)
      (weight_nonneg last enough (Nat.le_of_lt (Finset.mem_range.mp bound)))
  have rest : ∑ i ∈ Finset.Ico g rounds, D i * weight width rounds i =
      D g * ∑ i ∈ Finset.Ico g rounds, weight width rounds i := by
    rw [Finset.mul_sum]
    apply Finset.sum_congr rfl
    intro i member
    obtain ⟨from_g, bound⟩ := Finset.mem_Ico.mp member
    rw [settled i from_g bound]
  rw [rest]
  exact Int.add_nonneg first (Int.mul_nonneg (nonneg g) (sum_weights_nonneg last enough))

theorem exists_last {P : Nat → Prop} (some : ∃ i < rounds, P i) :
    ∃ g < rounds, P g ∧ ∀ i, g < i → i < rounds → ¬ P i := by
  induction rounds with
  | zero =>
    obtain ⟨i, bound, _⟩ := some
    omega
  | succ rounds ih =>
    by_cases top : P rounds
    · exact ⟨rounds, Nat.lt_succ_self rounds, top, fun i above bound => by omega⟩
    · have earlier : ∃ i < rounds, P i := by
        obtain ⟨i, bound, holds⟩ := some
        refine ⟨i, ?_, holds⟩
        have apart : i ≠ rounds := by
          rintro rfl
          exact top holds
        omega
      obtain ⟨g, bound, holds, after⟩ := ih earlier
      refine ⟨g, by omega, holds, fun i above below => ?_⟩
      by_cases last : i = rounds
      · subst last
        exact top
      · exact after i above (by omega)

end Rounds
