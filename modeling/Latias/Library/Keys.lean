import Mathlib.Algebra.BigOperators.Group.Finset.Basic
import Mathlib.Data.List.AList

/-! Lists whose elements have distinct keys, and the tables built from them. -/

namespace Keys

variable {α β κ : Type} [DecidableEq κ] {key : α → κ} {l : List α} {a : α}

theorem filter_eq_singleton (distinct : (l.map key).Nodup) (member : a ∈ l) :
    (l.filter fun b => key b = key a) = [a] := by
  induction l with
  | nil => cases member
  | cons b l ih =>
    obtain ⟨absent, distinct⟩ := List.nodup_cons.mp distinct
    rcases List.mem_cons.mp member with rfl | later
    · have none : (l.filter fun b => key b = key a) = [] := by
        rw [List.filter_eq_nil_iff]
        intro b inside same
        exact absent (of_decide_eq_true same ▸ List.mem_map_of_mem inside)
      rw [List.filter_cons_of_pos (by simp), none]
    · have apart : key b ≠ key a := fun same => absent (same ▸ List.mem_map_of_mem later)
      rw [List.filter_cons_of_neg (by simp [apart])]
      exact ih distinct later

def insertAll (key : α → κ) (value : α → β) (l : List α) (table : AList fun _ : κ => β) :
    AList fun _ : κ => β :=
  l.foldl (fun table a => table.insert (key a) (value a)) table

theorem lookup_insertAll_absent {value : α → β} {table : AList fun _ : κ => β} {k : κ}
    (absent : k ∉ l.map key) : (insertAll key value l table).lookup k = table.lookup k := by
  induction l generalizing table with
  | nil => rfl
  | cons b l ih =>
    rw [List.map_cons, List.mem_cons, not_or] at absent
    exact (ih absent.2).trans (AList.lookup_insert_ne absent.1)

theorem lookup_insertAll {value : α → β} {table : AList fun _ : κ => β}
    (distinct : (l.map key).Nodup) (member : a ∈ l) :
    (insertAll key value l table).lookup (key a) = some (value a) := by
  induction l generalizing table with
  | nil => cases member
  | cons b l ih =>
    obtain ⟨absent, distinct⟩ := List.nodup_cons.mp distinct
    rcases List.mem_cons.mp member with rfl | later
    · exact (lookup_insertAll_absent absent).trans (AList.lookup_insert table)
    · exact ih distinct later

theorem exists_of_lookup_insertAll {value : α → β} {table : AList fun _ : κ => β} {k : κ} {v : β}
    (found : (insertAll key value l table).lookup k = some v) :
    (∃ a ∈ l, key a = k ∧ value a = v) ∨ table.lookup k = some v := by
  induction l generalizing table with
  | nil => exact Or.inr found
  | cons b l ih =>
    rcases ih found with ⟨a, member, same⟩ | before
    · exact Or.inl ⟨a, List.mem_cons_of_mem b member, same⟩
    · by_cases here : k = key b
      · subst here
        rw [AList.lookup_insert] at before
        exact Or.inl ⟨b, List.mem_cons_self, rfl, Option.some_inj.mp before⟩
      · rw [AList.lookup_insert_ne here] at before
        exact Or.inr before

theorem mem_keys_insertAll {value : α → β} {table : AList fun _ : κ => β} {k : κ} :
    k ∈ insertAll key value l table ↔ k ∈ l.map key ∨ k ∈ table := by
  induction l generalizing table with
  | nil => simp [insertAll]
  | cons b l ih =>
    have step : insertAll key value (b :: l) table =
        insertAll key value l (table.insert (key b) (value b)) := rfl
    rw [step, ih, AList.mem_insert, List.map_cons, List.mem_cons]
    tauto

theorem union_of_subset {table old : AList fun _ : κ => β} (keys : ∀ k ∈ old, k ∈ table) :
    table ∪ old = table := by
  have entries : ∀ (l l' : List (Sigma fun _ : κ => β)), l'.NodupKeys → l'.keys ⊆ l.keys →
      l.kunion l' = l := by
    intro l
    induction l with
    | nil => exact fun l' _ within => List.map_eq_nil_iff.mp (List.subset_nil.mp within)
    | cons e l ih =>
      intro l' distinct within
      rw [List.kunion_cons, ih (l'.kerase e.1) (distinct.kerase e.1)]
      intro k member
      have apart : k ≠ e.1 := by
        rintro rfl
        exact List.notMem_keys_kerase e.1 distinct member
      have inside := within ((List.mem_keys_kerase_of_ne apart).mp member)
      exact (List.mem_cons.mp inside).resolve_left apart
  apply AList.ext
  exact entries table.entries old.entries old.nodupKeys fun k member => keys k member

theorem lookup_insertAll_keys (f : κ → β) (l : List κ) (table : AList fun _ : κ => β) (k : κ) :
    (insertAll id f l table).lookup k = if k ∈ l then some (f k) else table.lookup k := by
  induction l generalizing table with
  | nil => rfl
  | cons b l ih =>
    have step : insertAll id f (b :: l) table = insertAll id f l (table.insert b (f b)) := rfl
    rw [step, ih]
    by_cases later : k ∈ l
    · simp [later]
    · by_cases here : k = b
      · subst here
        simp
      · simp [later, here]

/-- The first element of each key has what every element of that key expects, just when each element
    expects what it has or, after one of its key, what that one expects. -/
theorem first_expected_iff {have_ expect : α → β} (l : List α) :
    (∀ d ∈ l, ∃ first, l.find? (fun e => key e = key d) = some first ∧ have_ first = expect d) ↔
      ∀ before d after, l = before ++ d :: after →
        match before.find? fun e => key e = key d with
        | some first => expect first = expect d
        | none => have_ d = expect d := by
  have found {before after : List α} {d first : α} {k : κ}
      (early : before.find? (fun e => key e = k) = some first) :
      (before ++ d :: after).find? (fun e => key e = k) = some first := by
    rw [List.find?_append, early, Option.some_or]
  have here {before after : List α} {d : α} (none : before.find? (fun e => key e = key d) = none) :
      (before ++ d :: after).find? (fun e => key e = key d) = some d := by
    rw [List.find?_append, none, Option.none_or]
    simp
  constructor
  · rintro all before d after rfl
    obtain ⟨first, at_first, value⟩ := all d (List.mem_append_right before List.mem_cons_self)
    cases early : before.find? fun e => key e = key d with
    | none =>
      rw [here early] at at_first
      cases at_first
      exact value
    | some e =>
      rw [found early] at at_first
      cases at_first
      have hit := List.find?_some early
      have same : key first = key d := of_decide_eq_true hit
      obtain ⟨head, at_head, own⟩ :=
        all first (List.mem_append_left _ (List.mem_of_find?_eq_some early))
      rw [same, found early] at at_head
      cases at_head
      exact own.symm.trans value
  · intro sound d member
    obtain ⟨before, after, rfl⟩ := List.append_of_mem member
    have at_d := sound before d after rfl
    cases early : before.find? fun e => key e = key d with
    | none =>
      rw [early] at at_d
      exact ⟨d, here early, at_d⟩
    | some first =>
      rw [early] at at_d
      obtain ⟨hit, front, back, split, none⟩ := List.find?_eq_some_iff_append.mp early
      have same : key first = key d := of_decide_eq_true hit
      have at_first := sound front first (back ++ d :: after) (by rw [split]; simp)
      have unseen : front.find? (fun e => key e = key first) = Option.none := by
        rw [List.find?_eq_none, same]
        intro e inside
        simpa using none e inside
      rw [unseen] at at_first
      exact ⟨first, found early, at_first.trans at_d⟩

theorem find?_of_forall₂ {R : α → β → Prop} {p : α → Bool} {q : β → Bool} {l : List α} {l' : List β}
    (pairs : List.Forall₂ R l l') (alike : ∀ a b, R a b → p a = q b) :
    (l.find? p = none ∧ l'.find? q = none) ∨
      ∃ a b, l.find? p = some a ∧ l'.find? q = some b ∧ R a b := by
  induction pairs with
  | nil => exact Or.inl ⟨rfl, rfl⟩
  | @cons a b l l' related _ ih =>
    have same := alike a b related
    rw [List.find?_cons, List.find?_cons, ← same]
    cases p a with
    | true => exact Or.inr ⟨a, b, rfl, rfl, related⟩
    | false => exact ih

theorem prod_entries {μ : Type} [CommMonoid μ] (table : AList fun _ : κ => β) (f : κ → β → μ)
    (g : κ → μ) (value : ∀ k v, table.lookup k = some v → f k v = g k) :
    (table.entries.map fun entry => f entry.1 entry.2).prod = ∏ k ∈ table.keys.toFinset, g k := by
  rw [List.prod_toFinset _ table.keys_nodup, AList.keys, List.keys, List.map_map]
  refine congrArg List.prod (List.map_congr_left fun entry member => ?_)
  exact value entry.1 entry.2 (AList.mem_lookup_iff.mpr member)

theorem toString_nat_injective : Function.Injective (toString : Nat → String) := by
  intro i j same
  have digits := congrArg String.toList same
  simp only [Nat.toString_eq_repr, Nat.toList_repr] at digits
  have values := congrArg (fun ds => Nat.ofDigitChars 10 ds 0) digits
  simpa using values

/-! The first candidate that is not taken. -/

def firstFree {ν : Type} (taken : ν → Bool) (candidate : Nat → ν) : Nat → Nat → Option ν
  | 0, _ => none
  | fuel + 1, i =>
    if taken (candidate i) then firstFree taken candidate fuel (i + 1) else some (candidate i)

variable {ν : Type} {taken : ν → Bool} {candidate : Nat → ν} {fuel i : Nat}

theorem firstFree_eq_some {found : ν} (search : firstFree taken candidate fuel i = some found) :
    taken found = false ∧ ∃ j, i ≤ j ∧ found = candidate j ∧
      ∀ k, i ≤ k → k < j → taken (candidate k) = true := by
  induction fuel generalizing i with
  | zero => cases search
  | succ fuel ih =>
    rw [firstFree] at search
    split at search
    · next here =>
      obtain ⟨free, j, later, value, before⟩ := ih search
      refine ⟨free, j, by omega, value, fun k from_i below => ?_⟩
      rcases Nat.eq_or_lt_of_le from_i with rfl | beyond
      · exact here
      · exact before k beyond below
    · next free =>
      cases search
      exact ⟨Bool.eq_false_of_not_eq_true free, i, Nat.le_refl i, rfl, fun k _ _ => by omega⟩

theorem taken_of_firstFree_none (search : firstFree taken candidate fuel i = none) :
    ∀ k < fuel, taken (candidate (i + k)) = true := by
  induction fuel generalizing i with
  | zero => exact fun k below => absurd below (Nat.not_lt_zero k)
  | succ fuel ih =>
    rw [firstFree] at search
    split at search
    · next here =>
      intro k below
      cases k with
      | zero => exact here
      | succ k =>
        have rest := ih search k (by omega)
        rwa [Nat.add_assoc, Nat.add_comm 1 k] at rest
    · cases search

theorem firstFree_total (distinct : Function.Injective candidate) {names : List ν}
    (within : ∀ name, taken name = true → name ∈ names) (enough : names.length < fuel) :
    ∃ found, firstFree taken candidate fuel i = some found := by
  cases search : firstFree taken candidate fuel i with
  | some found => exact ⟨found, rfl⟩
  | none =>
    have all := taken_of_firstFree_none search
    have nodup : ((List.range fuel).map fun k => candidate (i + k)).Nodup := by
      apply List.nodup_range.map
      intro a b same
      exact Nat.add_left_cancel (distinct same)
    have inside : (List.range fuel).map (fun k => candidate (i + k)) ⊆ names := by
      intro name member
      obtain ⟨k, below, rfl⟩ := List.mem_map.mp member
      exact within _ (all k (List.mem_range.mp below))
    have bound := (List.subperm_of_subset nodup inside).length_le
    rw [List.length_map, List.length_range] at bound
    omega

end Keys
