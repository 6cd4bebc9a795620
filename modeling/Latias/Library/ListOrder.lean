import Mathlib.Data.List.Flatten
import Mathlib.Data.List.Nodup

/-! Which of two elements comes first in a list. -/

namespace ListOrder

variable {α β : Type} {a b : α} {l l' front back : List α}

/-- Some occurrence of the first element has an occurrence of the second after it. -/
def Before (l : List α) (a b : α) : Prop := [a, b].Sublist l

theorem Before.mono (before : Before l a b) (inside : l.Sublist l') : Before l' a b := before.trans inside

theorem before_append (in_front : a ∈ front) (in_back : b ∈ back) : Before (front ++ back) a b :=
  (List.singleton_sublist.mpr in_front).append (List.singleton_sublist.mpr in_back)

theorem before_total (in_a : a ∈ l) (in_b : b ∈ l) (apart : a ≠ b) : Before l a b ∨ Before l b a := by
  obtain ⟨front, back, rfl⟩ := List.append_of_mem in_a
  rcases List.mem_append.mp in_b with earlier | later
  · exact Or.inr (before_append earlier List.mem_cons_self)
  · left
    have after := (List.mem_cons.mp later).resolve_left (Ne.symm apart)
    have pair : Before (a :: back) a b := (List.singleton_sublist.mpr after).cons_cons a
    exact pair.mono (List.sublist_append_right front _)

theorem Before.asymm [BEq α] [LawfulBEq α] (apart : a ≠ b) (once_a : l.count a ≤ 1)
    (once_b : l.count b ≤ 1) (first : Before l a b) : ¬ Before l b a := by
  intro second
  unfold Before at first second
  induction l with
  | nil => cases first
  | cons c l ih =>
    have gone (x : α) (once : (c :: l).count x ≤ 1) (here : x = c) : x ∉ l := by
      subst here
      rw [List.count_cons_self] at once
      exact List.count_eq_zero.mp (by omega)
    have rest (x : α) (once : (c :: l).count x ≤ 1) : l.count x ≤ 1 :=
      Nat.le_trans List.count_le_count_cons once
    cases first with
    | cons _ first =>
      cases second with
      | cons _ second => exact ih (rest a once_a) (rest b once_b) first second
      | cons_cons _ second =>
        exact gone b once_b rfl (first.subset (List.mem_cons_of_mem a (List.mem_singleton_self b)))
    | cons_cons _ first =>
      cases second with
      | cons _ second =>
        exact gone a once_a rfl (second.subset (List.mem_cons_of_mem b (List.mem_singleton_self a)))
      | cons_cons _ second => exact apart rfl

theorem Before.flatMap {f : α → List β} {x y : β} (before : Before l a b) (in_a : x ∈ f a)
    (in_b : y ∈ f b) : Before (l.flatMap f) x y := by
  have pair : Before ([a, b].flatMap f) x y := by
    rw [List.flatMap_cons, List.flatMap_singleton]
    exact before_append in_a in_b
  exact pair.mono (List.Sublist.flatMap before f)

theorem before_flatMap {f : α → List β} {x y : β} (member : a ∈ l) (before : Before (f a) x y) :
    Before (l.flatMap f) x y :=
  before.mono (List.sublist_flatten_of_mem (List.mem_map_of_mem member))

theorem Before.filterMap {f : α → Option β} {x y : β} (before : Before l a b) (at_a : f a = some x)
    (at_b : f b = some y) : Before (l.filterMap f) x y := by
  have pair := List.Sublist.filterMap f before
  rwa [List.filterMap_cons_some at_a, List.filterMap_cons_some at_b, List.filterMap_nil] at pair

theorem countP_of_unique [DecidableEq α] {P : α → Prop} [DecidablePred P] (nodup : l.Nodup)
    (unique : ∀ a ∈ l, ∀ b ∈ l, P a → P b → a = b) :
    l.countP (fun a => P a) = if ∃ a ∈ l, P a then 1 else 0 := by
  split
  · next some =>
    obtain ⟨a, member, holds⟩ := some
    have only : l.countP (fun b => P b) = l.count a := by
      refine List.countP_congr fun b inside => ?_
      simp only [decide_eq_true_eq, beq_iff_eq]
      exact ⟨fun other => unique b inside a member other holds, fun same => same ▸ holds⟩
    rw [only, List.count_eq_one_of_mem nodup member]
  · next none =>
    rw [List.countP_eq_zero]
    intro a member holds
    exact none ⟨a, member, of_decide_eq_true holds⟩

end ListOrder
