import Latias.Library.Keys
import Mathlib.Data.List.Nodup

/-! Names numbered one after another by a counter that wraps at a width, in a table from the names
    to the numbers and one back. -/

namespace Numbering

variable {κ : Type} {width id : Nat} {l : List κ} {a : κ}

def byId (width : Nat) (l : List κ) : AList fun _ : Nat => κ :=
  Keys.insertAll (fun entry => entry.2 % width) Prod.fst l.zipIdx ∅

@[simp] theorem byId_nil : byId width ([] : List κ) = ∅ := rfl

theorem byId_append (l : List κ) (a : κ) :
    byId width (l ++ [a]) = (byId width l).insert (l.length % width) a := by
  rw [byId, List.zipIdx_append, Keys.insertAll, List.foldl_append, Nat.zero_add]
  rfl

theorem number_of_fits (fits : l.length ≤ width) {i : Nat} (here : l[i]? = some a) :
    i % width = i :=
  Nat.mod_eq_of_lt (Nat.lt_of_lt_of_le (List.getElem?_eq_some_iff.mp here).1 fits)

theorem lookup_byId (fits : l.length ≤ width) :
    (byId width l).lookup id = some a ↔ l[id]? = some a := by
  constructor
  · intro found
    obtain ⟨⟨b, i⟩, member, index, rfl⟩ | absent := Keys.exists_of_lookup_insertAll found
    · have here := List.mk_mem_zipIdx_iff_getElem?.mp member
      rw [← index, number_of_fits fits here]
      exact here
    · cases absent
  · intro here
    have distinct : (l.zipIdx.map fun entry => entry.2 % width).Nodup := by
      have indices : (l.zipIdx.map Prod.snd).Nodup := by
        rw [List.zipIdx_map_snd]
        exact List.nodup_range'
      refine (List.map_congr_left ?_).symm ▸ indices
      rintro ⟨b, i⟩ member
      exact number_of_fits fits (List.mk_mem_zipIdx_iff_getElem?.mp member)
    have found := @Keys.lookup_insertAll (κ × Nat) κ Nat _ _ l.zipIdx (a, id) Prod.fst ∅ distinct
      (List.mk_mem_zipIdx_iff_getElem?.mpr here)
    rwa [number_of_fits fits here] at found

variable [DecidableEq κ]

def byName (width : Nat) (l : List κ) : AList fun _ : κ => Nat :=
  Keys.insertAll Prod.fst (fun entry => entry.2 % width) l.zipIdx ∅

@[simp] theorem byName_nil : byName width ([] : List κ) = ∅ := rfl

theorem byName_append (l : List κ) (a : κ) :
    byName width (l ++ [a]) = (byName width l).insert a (l.length % width) := by
  rw [byName, List.zipIdx_append, Keys.insertAll, List.foldl_append, Nat.zero_add]
  rfl

theorem mem_byName : a ∈ byName width l ↔ a ∈ l := by
  rw [byName, Keys.mem_keys_insertAll, List.zipIdx_map_fst]
  simp

theorem lookup_byName (distinct : l.Nodup) :
    (byName width l).lookup a = some id ↔ ∃ i, l[i]? = some a ∧ i % width = id := by
  constructor
  · intro found
    obtain ⟨⟨b, i⟩, member, rfl, value⟩ | absent := Keys.exists_of_lookup_insertAll found
    · exact ⟨i, List.mk_mem_zipIdx_iff_getElem?.mp member, value⟩
    · cases absent
  · rintro ⟨i, here, rfl⟩
    have names : (l.zipIdx.map Prod.fst).Nodup := by rwa [List.zipIdx_map_fst]
    exact Keys.lookup_insertAll names (List.mk_mem_zipIdx_iff_getElem?.mpr here)

theorem byName_of_fits (fits : l.length ≤ width) :
    byName width l = Keys.insertAll Prod.fst Prod.snd l.zipIdx ∅ := by
  apply List.foldl_ext
  rintro table ⟨b, i⟩ member
  simp only [number_of_fits fits (List.mk_mem_zipIdx_iff_getElem?.mp member)]

/-- The tables are inverse to each other, between the names of a kind and the numbers below `k`. -/
structure Bijective (names : AList fun _ : κ => Nat) (ids : AList fun _ : Nat => κ)
    (kind : κ → Prop) (k : Nat) : Prop where
  inverse : ∀ a id, names.lookup a = some id ↔ ids.lookup id = some a
  names : ∀ a, a ∈ names ↔ kind a
  ids : ∀ id, id ∈ ids ↔ id < k

theorem bijective_of_fits (distinct : l.Nodup) (fits : l.length ≤ width) :
    Bijective (byName width l) (byId width l) (· ∈ l) l.length := by
  refine ⟨fun a id => ?_, fun a => mem_byName, fun id => ?_⟩
  · rw [lookup_byName distinct, lookup_byId fits]
    constructor
    · rintro ⟨i, here, rfl⟩
      rwa [number_of_fits fits here]
    · exact fun here => ⟨id, here, number_of_fits fits here⟩
  · rw [← AList.lookup_isSome, Option.isSome_iff_exists]
    simp only [lookup_byId fits]
    constructor
    · rintro ⟨a, here⟩
      exact (List.getElem?_eq_some_iff.mp here).1
    · exact fun below => ⟨_, List.getElem?_eq_getElem below⟩

/-- When it wraps, the first name and another have the number 0. -/
theorem fits_of_inverse (distinct : l.Nodup) (positive : 0 < width)
    (inverse : ∀ a id, (byName width l).lookup a = some id ↔ (byId width l).lookup id = some a) :
    l.length ≤ width := by
  by_contra wraps
  rw [Nat.not_le] at wraps
  have first := List.getElem?_eq_getElem (Nat.lt_trans positive wraps)
  have again := List.getElem?_eq_getElem wraps
  have zero := (lookup_byName distinct).mpr ⟨0, first, Nat.zero_mod width⟩
  have zero' := (lookup_byName distinct).mpr ⟨width, again, Nat.mod_self width⟩
  have same := Option.some_inj.mp
    (((inverse _ _).mp zero).symm.trans ((inverse _ _).mp zero'))
  exact Nat.ne_of_lt positive (distinct.getElem_inj_iff.mp same)

end Numbering
