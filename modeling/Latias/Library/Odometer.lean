import Mathlib.Algebra.BigOperators.Group.List.Basic
import Mathlib.Algebra.Order.Ring.Int
import Mathlib.Data.List.DropRight
import Mathlib.Tactic.Ring

/-! Counted loops around each other as an odometer: how often what the watched dials show changes. -/

namespace Odometer

structure Dial where
  bound : Nat
  watched : Bool

namespace Dial

def mark (dial : Dial) (i : Nat) : Option Int := if dial.watched then some i else none

def idle (dial : Dial) : Bool := !dial.watched || dial.bound == 1

end Dial

/-- What is shown at each reading, the innermost dial first, in front of `shown`. -/
def displays : List Dial → List (Option Int) → List (List (Option Int))
  | [], shown => [shown]
  | dial :: rest, shown =>
    (List.range dial.bound).flatMap fun i => displays rest (dial.mark i :: shown)

def refreshes {β : Type} [DecidableEq β] : List β → Nat
  | [] => 0
  | [_] => 1
  | a :: b :: l => (if a = b then 0 else 1) + refreshes (b :: l)

/-- The readings of the dials from the outermost to the innermost one that is not idle. -/
def turns (dials : List Dial) : Nat := ((dials.rdropWhile Dial.idle).map Dial.bound).prod

section Refreshes

variable {β : Type} [DecidableEq β]

theorem refreshes_append {l m : List β} {a b : β} (last : l.getLast? = some a)
    (first : m.head? = some b) :
    refreshes (l ++ m) + (if a = b then 1 else 0) = refreshes l + refreshes m := by
  induction l with
  | nil => cases last
  | cons c l ih =>
    cases l with
    | nil =>
      obtain rfl : c = a := Option.some_inj.mp last
      cases m with
      | nil => cases first
      | cons d m =>
        obtain rfl : d = b := Option.some_inj.mp first
        simp only [List.cons_append, List.nil_append, refreshes]
        split <;> omega
    | cons d l =>
      have rest := ih (by rwa [List.getLast?_cons_cons] at last)
      simp only [List.cons_append, refreshes] at rest ⊢
      omega

theorem refreshes_repeat {l : List β} {a b : β} (last : l.getLast? = some a)
    (first : l.head? = some b) (n : Nat) :
    refreshes ((List.range (n + 1)).flatMap fun _ => l) + n * (if a = b then 1 else 0) =
      (n + 1) * refreshes l := by
  induction n with
  | zero => simp
  | succ n ih =>
    have ends : ((List.range (n + 1)).flatMap fun _ => l).getLast? = some a := by
      rw [List.range_succ, List.flatMap_append, List.flatMap_singleton, List.getLast?_append, last]
      rfl
    have joined := refreshes_append ends first
    rw [List.range_succ, List.flatMap_append, List.flatMap_singleton]
    split
    all_goals
      next same =>
        simp only [same, if_true, if_false] at joined ih
        ring_nf at ih joined ⊢
        omega

theorem refreshes_apart {f : Nat → List β} {n : Nat} {count : Nat}
    (some : ∀ i, f i ≠ []) (counts : ∀ i, refreshes (f i) = count)
    (apart : ∀ i, ∀ a ∈ (f i).getLast?, ∀ b ∈ (f (i + 1)).head?, a ≠ b) :
    refreshes ((List.range n).flatMap f) = n * count := by
  induction n with
  | zero => simp [refreshes]
  | succ n ih =>
    rw [List.range_succ, List.flatMap_append, List.flatMap_singleton, Nat.succ_mul, ← ih,
      ← counts n]
    cases n with
    | zero => simp [refreshes]
    | succ n =>
      have last : ((f n).getLast (some n)) ∈ (f n).getLast? := List.getLast?_eq_getLast_of_ne_nil _
      have first : ((f (n + 1)).head (some (n + 1))) ∈ (f (n + 1)).head? := List.head?_eq_some_head _
      have ends : ((List.range (n + 1)).flatMap f).getLast? = Option.some ((f n).getLast (some n)) := by
        rw [List.range_succ, List.flatMap_append, List.flatMap_singleton, List.getLast?_append, last]
        rfl
      have joined := refreshes_append ends first
      rw [if_neg (apart n _ last _ first)] at joined
      omega

/-- A sum of amounts, each of them the same or nothing where the key stays. -/
theorem sum_eq_mul_refreshes {α : Type} {l : List α} {key : α → β} {amount : α → Int} {whole : Int}
    (first : ∀ a ∈ l.head?, amount a = whole)
    (next : ∀ front back a b, l = front ++ a :: b :: back →
      amount b = if key a = key b then 0 else whole) :
    (l.map amount).sum = whole * refreshes (l.map key) := by
  have tails : ∀ a l, (∀ front back b c, a :: l = front ++ b :: c :: back →
      amount c = if key b = key c then 0 else whole) →
        (l.map amount).sum + whole = whole * refreshes ((a :: l).map key) := by
    intro a l
    induction l generalizing a with
    | nil => simp [refreshes]
    | cons b l ih =>
      intro next
      have here := next [] l a b rfl
      have rest := ih b fun front back c d split => next (a :: front) back c d (by rw [split]; rfl)
      rw [List.map_cons, List.sum_cons, here, Int.add_assoc, rest, List.map_cons, List.map_cons,
        List.map_cons, refreshes]
      split
      all_goals
        push_cast
        ring
  cases l with
  | nil => simp [refreshes]
  | cons a l =>
    rw [List.map_cons, List.sum_cons, first a rfl, Int.add_comm, tails a l next]

end Refreshes

variable {dials : List Dial}

theorem displays_ends (positive : ∀ dial ∈ dials, 0 < dial.bound) (shown : List (Option Int)) :
    (displays dials shown).head? =
        some ((dials.map fun dial => dial.mark 0).reverse ++ shown) ∧
      (displays dials shown).getLast? =
        some ((dials.map fun dial => dial.mark (dial.bound - 1)).reverse ++ shown) := by
  induction dials generalizing shown with
  | nil => exact ⟨rfl, rfl⟩
  | cons dial rest ih =>
    obtain ⟨n, bound⟩ := Nat.exists_eq_succ_of_ne_zero (positive dial List.mem_cons_self).ne'
    have inner := fun shown => ih (fun d inside => positive d (List.mem_cons_of_mem dial inside)) shown
    constructor
    · rw [displays, bound, List.range_succ_eq_map, List.flatMap_cons, List.head?_append,
        (inner (dial.mark 0 :: shown)).1]
      simp
    · rw [displays, bound, List.range_succ, List.flatMap_append, List.flatMap_singleton,
        List.getLast?_append, (inner (dial.mark n :: shown)).2]
      simp [bound]

theorem ends_eq_iff (positive : ∀ dial ∈ dials, 0 < dial.bound) :
    ((dials.map fun dial => dial.mark (dial.bound - 1)).reverse =
      (dials.map fun dial => dial.mark 0).reverse) ↔ ∀ dial ∈ dials, dial.idle = true := by
  rw [List.reverse_inj, List.map_inj_left]
  refine forall₂_congr fun dial member => ?_
  have some := positive dial member
  rw [Dial.mark, Dial.mark, Dial.idle]
  cases dial.watched
  · simp
  · simp
    omega

theorem turns_of_idle (idle : ∀ dial ∈ dials, dial.idle = true) : turns dials = 1 := by
  rw [turns, List.rdropWhile_eq_nil_iff.mpr idle]
  rfl

theorem turns_cons_of_idle (idle : ∀ dial ∈ dials, dial.idle = true) (dial : Dial) :
    turns (dial :: dials) = if dial.idle then 1 else dial.bound := by
  have none : dials.reverse.dropWhile Dial.idle = [] :=
    List.dropWhile_eq_nil_iff.mpr fun d inside => idle d (List.mem_reverse.mp inside)
  rw [turns, List.rdropWhile, List.reverse_cons, List.dropWhile_append, none]
  by_cases here : dial.idle = true
  · simp [here]
  · simp [here]

theorem turns_cons_of_busy (busy : ¬ ∀ dial ∈ dials, dial.idle = true) (dial : Dial) :
    turns (dial :: dials) = dial.bound * turns dials := by
  have some : dials.reverse.dropWhile Dial.idle ≠ [] := by
    intro none
    apply busy
    intro d inside
    exact List.dropWhile_eq_nil_iff.mp none d (List.mem_reverse.mpr inside)
  rw [turns, turns, List.rdropWhile, List.rdropWhile, List.reverse_cons, List.dropWhile_append,
    if_neg (by rwa [List.isEmpty_iff]), List.reverse_append, List.reverse_singleton,
    List.singleton_append, List.map_cons, List.prod_cons]

/-- What is shown changes as often as the innermost dial that is not idle moves. -/
theorem refreshes_displays (positive : ∀ dial ∈ dials, 0 < dial.bound)
    (shown : List (Option Int)) : refreshes (displays dials shown) = turns dials := by
  induction dials generalizing shown with
  | nil => rfl
  | cons dial rest ih =>
    have inner : ∀ d ∈ rest, 0 < d.bound := fun d inside =>
      positive d (List.mem_cons_of_mem dial inside)
    have some : ∀ shown, displays rest shown ≠ [] := by
      intro shown none
      have first := (displays_ends inner shown).1
      rw [none] at first
      cases first
    obtain ⟨n, bound⟩ := Nat.exists_eq_succ_of_ne_zero (positive dial List.mem_cons_self).ne'
    by_cases watched : dial.watched = true
    · have counted : refreshes (displays (dial :: rest) shown) = dial.bound * turns rest := by
        rw [displays]
        refine refreshes_apart (fun i => some _) (fun i => ih inner _) ?_
        intro i a last b first
        rw [(displays_ends inner _).2] at last
        rw [(displays_ends inner _).1] at first
        cases last
        cases first
        intro same
        have heads := (List.append_inj same (by simp)).2
        simp [Dial.mark, watched] at heads
      rw [counted]
      by_cases idle : ∀ d ∈ rest, d.idle = true
      · rw [turns_cons_of_idle idle, turns_of_idle idle, Nat.mul_one]
        simp [Dial.idle, watched]
      · rw [turns_cons_of_busy idle]
    · have constant : displays (dial :: rest) shown =
          (List.range (n + 1)).flatMap fun _ => displays rest (none :: shown) := by
        simp [displays, bound, Dial.mark, watched]
      have counted := refreshes_repeat (displays_ends inner (none :: shown)).2
        (displays_ends inner (none :: shown)).1 n
      rw [← constant, ih inner] at counted
      simp only [List.append_left_inj, ends_eq_iff inner] at counted
      by_cases idle : ∀ d ∈ rest, d.idle = true
      · rw [if_pos idle, turns_of_idle idle] at counted
        rw [turns_cons_of_idle idle, show dial.idle = true by simp [Dial.idle, watched], if_pos rfl]
        omega
      · rw [if_neg idle] at counted
        rw [turns_cons_of_busy idle, bound]
        simpa using counted

end Odometer
