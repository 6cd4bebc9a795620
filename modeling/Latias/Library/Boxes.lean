import Mathlib

/-! Boxes of integer intervals, and what is new in each of a sequence of sets. -/

namespace Boxes

variable {κ α : Type} [DecidableEq κ] [DecidableEq α]

/-- The integer points of a box: a coordinate of its interval for every dimension. -/
noncomputable def points (dims : Finset κ) (range : κ → Int × Int) : Finset ((k : κ) → k ∈ dims → Int) :=
  dims.pi fun k => Finset.Ico (range k).1 (range k).2

def meet (r r' : κ → Int × Int) (k : κ) : Int × Int := (max (r k).1 (r' k).1, min (r k).2 (r' k).2)

variable {dims : Finset κ} {range range' : κ → Int × Int}

theorem mem_points {p : (k : κ) → k ∈ dims → Int} :
    p ∈ points dims range ↔ ∀ k inside, (range k).1 ≤ p k inside ∧ p k inside < (range k).2 := by
  simp only [points, Finset.mem_pi, Finset.mem_Ico]

theorem points_inter (range range' : κ → Int × Int) :
    points dims range ∩ points dims range' = points dims (meet range range') := by
  ext p
  simp only [Finset.mem_inter, mem_points, meet]
  constructor
  · intro both k inside
    have here := both.1 k inside
    have there := both.2 k inside
    omega
  · intro both
    constructor
    · intro k inside
      have here := both k inside
      omega
    · intro k inside
      have here := both k inside
      omega

theorem card_points (dims : Finset κ) (range : κ → Int × Int) :
    ((points dims range).card : Int) = ∏ k ∈ dims, max ((range k).2 - (range k).1) 0 := by
  rw [points, Finset.card_pi, Nat.cast_prod]
  refine Finset.prod_congr rfl fun k _ => ?_
  rw [Int.card_Ico, Int.ofNat_toNat]

theorem card_points_of_ordered (ordered : ∀ k ∈ dims, (range k).1 ≤ (range k).2) :
    ((points dims range).card : Int) = ∏ k ∈ dims, ((range k).2 - (range k).1) := by
  rw [card_points]
  refine Finset.prod_congr rfl fun k inside => ?_
  have order := ordered k inside
  omega

/-- What each set of a sequence has that the one before it does not, in total. -/
def newcomers (before : Finset α) : List (Finset α) → Nat
  | [] => 0
  | after :: rest => (after \ before).card + newcomers after rest

def union (sets : List (Finset α)) : Finset α := sets.foldr (· ∪ ·) ∅

theorem mem_union {sets : List (Finset α)} {a : α} : a ∈ union sets ↔ ∃ set ∈ sets, a ∈ set := by
  induction sets with
  | nil => simp [union]
  | cons set sets ih =>
    rw [union, List.foldr_cons, Finset.mem_union, List.exists_mem_cons_iff, ← ih]
    rfl

theorem newcomers_snoc (before : Finset α) (sets : List (Finset α)) (after : Finset α) :
    newcomers before (sets ++ [after]) =
      newcomers before sets + (after \ sets.getLastD before).card := by
  induction sets generalizing before with
  | nil => simp [newcomers]
  | cons set sets ih =>
    rw [List.cons_append, newcomers, newcomers, ih set, Nat.add_assoc]
    cases sets with
    | nil => rfl
    | cons next sets => rfl

theorem card_union_le_add (known before : Finset α) (inside : before ⊆ known)
    (sets : List (Finset α)) : (known ∪ union sets).card ≤ known.card + newcomers before sets := by
  induction sets generalizing known before with
  | nil => simp [union, newcomers]
  | cons after rest ih =>
    have grown := ih (known ∪ after) after Finset.subset_union_right
    have step : (known ∪ after).card ≤ known.card + (after \ before).card := by
      have fewer : (after \ known).card ≤ (after \ before).card :=
        Finset.card_le_card (Finset.sdiff_subset_sdiff subset_rfl inside)
      have split := Finset.card_union_of_disjoint (Finset.disjoint_sdiff (s := known) (t := after))
      rw [Finset.union_sdiff_self_eq_union] at split
      omega
    have regroup : known ∪ union (after :: rest) = known ∪ after ∪ union rest := by
      rw [Finset.union_assoc]
      rfl
    rw [regroup, newcomers]
    omega

/-- New points, each against the set before only, are never fewer than all points. -/
theorem card_union_le (sets : List (Finset α)) : (union sets).card ≤ newcomers ∅ sets := by
  have bound := card_union_le_add ∅ ∅ subset_rfl sets
  rwa [Finset.empty_union, Finset.card_empty, Nat.zero_add] at bound

end Boxes
