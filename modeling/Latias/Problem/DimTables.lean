import Latias.Library.Numbering
import Latias.Problem.AddWorkload

/-! `Workloads::set_dims`: the tables of the dimensions that all ops share. -/

namespace TileExp.Problem

structure DimTables where
  NumFactorizedDimensions : Nat
  FactorizedDimensionIDToName : AList fun _ : Nat => String
  FactorizedDimensionNameToID : Table Nat
  NumFlattenedDimensions : Nat
  FlattenedDimensionIDToName : AList fun _ : Nat => String
  FlattenedDimensionNameToID : Table Nat
  FlattenedToFactorized : List (List Nat)
  FactorizedToFlattened : AList fun _ : Nat => Nat

namespace DimTables

def empty : DimTables := ⟨0, ∅, ∅, 0, ∅, ∅, [], ∅⟩

def increment (n : Nat) : Nat := (n + 1) % 2 ^ 32

def addDim (shape : DimTables) (dim : String) : DimTables where
  FactorizedDimensionNameToID :=
    shape.FactorizedDimensionNameToID.insert dim shape.NumFactorizedDimensions
  FactorizedDimensionIDToName :=
    shape.FactorizedDimensionIDToName.insert shape.NumFactorizedDimensions dim
  FlattenedDimensionNameToID :=
    shape.FlattenedDimensionNameToID.insert dim shape.NumFlattenedDimensions
  FlattenedDimensionIDToName :=
    shape.FlattenedDimensionIDToName.insert shape.NumFlattenedDimensions dim
  -- pushed before and after the two writes of `FactorizedToFlattened`
  FlattenedToFactorized :=
    shape.FlattenedToFactorized ++ [[shape.NumFactorizedDimensions]] ++
      [[shape.NumFactorizedDimensions]]
  FactorizedToFlattened :=
    (shape.FactorizedToFlattened.insert shape.NumFlattenedDimensions
      shape.NumFactorizedDimensions).insert shape.NumFactorizedDimensions
        shape.NumFlattenedDimensions
  NumFlattenedDimensions := increment shape.NumFlattenedDimensions
  NumFactorizedDimensions := increment shape.NumFactorizedDimensions

def set_dims (shape : DimTables) (dims : List String) : Exec DimTables := do
  tileexpAssert (shape.NumFlattenedDimensions = 0) "common_shape_.NumFlattenedDimensions == 0"
  tileexpAssert (shape.NumFactorizedDimensions = 0) "common_shape_.NumFactorizedDimensions == 0"
  .ok (dims.foldl addDim shape)

open Numbering

structure Built (shape : DimTables) (dims : List String) : Prop where
  factorized : shape.NumFactorizedDimensions = dims.length % 2 ^ 32
  factorized_ids : shape.FactorizedDimensionIDToName = byId (2 ^ 32) dims
  factorized_names : shape.FactorizedDimensionNameToID = byName (2 ^ 32) dims
  flattened : shape.NumFlattenedDimensions = dims.length % 2 ^ 32
  flattened_ids : shape.FlattenedDimensionIDToName = byId (2 ^ 32) dims
  flattened_names : shape.FlattenedDimensionNameToID = byName (2 ^ 32) dims
  pushed : shape.FlattenedToFactorized =
    (List.range dims.length).flatMap fun i => [[i % 2 ^ 32], [i % 2 ^ 32]]
  same : ∀ i j, shape.FactorizedToFlattened.lookup i = some j ↔
    j = i ∧ ∃ k < dims.length, k % 2 ^ 32 = i

theorem built_empty : empty.Built [] := by
  constructor <;> simp [empty]

theorem Built.addDim {shape : DimTables} {dims : List String} (built : shape.Built dims)
    (dim : String) : (shape.addDim dim).Built (dims ++ [dim]) := by
  have counter : increment (dims.length % 2 ^ 32) = (dims ++ [dim]).length % 2 ^ 32 := by
    rw [increment, Nat.mod_add_mod, List.length_append, List.length_singleton]
  constructor
  · rw [DimTables.addDim, built.factorized, counter]
  · rw [DimTables.addDim, built.factorized_ids, built.factorized, byId_append]
  · rw [DimTables.addDim, built.factorized_names, built.factorized, byName_append]
  · rw [DimTables.addDim, built.flattened, counter]
  · rw [DimTables.addDim, built.flattened_ids, built.flattened, byId_append]
  · rw [DimTables.addDim, built.flattened_names, built.flattened, byName_append]
  · rw [DimTables.addDim, built.pushed, built.factorized, List.length_append,
      List.length_singleton, List.range_succ, List.flatMap_append]
    simp
  · intro i j
    have later : (∃ k < (dims ++ [dim]).length, k % 2 ^ 32 = i) ↔
        (∃ k < dims.length, k % 2 ^ 32 = i) ∨ dims.length % 2 ^ 32 = i := by
      simp only [List.length_append, List.length_singleton, Nat.lt_succ_iff_lt_or_eq]
      constructor
      · rintro ⟨k, below | rfl, value⟩
        · exact Or.inl ⟨k, below, value⟩
        · exact Or.inr value
      · rintro (⟨k, below, value⟩ | value)
        · exact ⟨k, Or.inl below, value⟩
        · exact ⟨dims.length, Or.inr rfl, value⟩
    rw [later, DimTables.addDim, built.factorized, built.flattened, AList.insert_insert]
    by_cases here : i = dims.length % 2 ^ 32
    · subst here
      simp [eq_comm]
    · have apart : dims.length % 2 ^ 32 ≠ i := fun eq => here eq.symm
      rw [AList.lookup_insert_ne here, built.same, or_iff_left apart]

theorem built_foldl (dims : List String) : (dims.foldl DimTables.addDim empty).Built dims := by
  induction dims using List.reverseRecOn with
  | nil => exact built_empty
  | append_singleton dims dim ih =>
    rw [List.foldl_append]
    exact ih.addDim dim

/-- Up to the width of the counters these are the tables that `add_workload` starts from. -/
theorem Built.common {shape : DimTables} {dims : List String} (built : shape.Built dims)
    (fits : dims.length ≤ 2 ^ 32) :
    shape.FactorizedDimensionNameToID =
        (Problem.set_dims dims).common_shape_.FactorizedDimensionNameToID ∧
      ∀ id, shape.FactorizedDimensionIDToName.lookup id =
        (Problem.set_dims dims).common_shape_.FactorizedDimensionIDToName[id]? := by
  constructor
  · rw [built.factorized_names, byName_of_fits fits]
    rfl
  · intro id
    apply Option.ext
    intro name
    rw [built.factorized_ids]
    exact lookup_byId fits

/-- The tables of the dimensions are inverse to each other, and each flattened dimension consists
    of the factorized one with its number. -/
structure Inverse (shape : DimTables) (dims : List String) : Prop where
  factorized : Bijective shape.FactorizedDimensionNameToID shape.FactorizedDimensionIDToName
    (· ∈ dims) dims.length
  flattened : Bijective shape.FlattenedDimensionNameToID shape.FlattenedDimensionIDToName
    (· ∈ dims) dims.length
  entries : shape.FlattenedToFactorized.length = dims.length
  entry : ∀ i < dims.length, shape.FlattenedToFactorized[i]? = some [i]
  same : ∀ i < dims.length, shape.FactorizedToFlattened.lookup i = some i

section Inverse

variable {shape : DimTables} {dims : List String}

/-- Every dimension is pushed twice. -/
theorem Built.length_FlattenedToFactorized (built : shape.Built dims) :
    shape.FlattenedToFactorized.length = 2 * dims.length := by
  rw [built.pushed, List.length_flatMap]
  simp [Nat.mul_comm]

theorem Built.inverse_maps (built : shape.Built dims) (distinct : dims.Nodup)
    (fits : dims.length ≤ 2 ^ 32) :
    Bijective shape.FactorizedDimensionNameToID shape.FactorizedDimensionIDToName (· ∈ dims)
        dims.length ∧
      Bijective shape.FlattenedDimensionNameToID shape.FlattenedDimensionIDToName (· ∈ dims)
        dims.length ∧
      ∀ i < dims.length, shape.FactorizedToFlattened.lookup i = some i := by
  have bijective := bijective_of_fits distinct fits
  refine ⟨?_, ?_, fun i below => ?_⟩
  · rwa [built.factorized_names, built.factorized_ids]
  · rwa [built.flattened_names, built.flattened_ids]
  · exact (built.same i i).mpr ⟨rfl, i, below, Nat.mod_eq_of_lt (Nat.lt_of_lt_of_le below fits)⟩

theorem Built.inverse_iff (built : shape.Built dims) : shape.Inverse dims ↔ dims = [] := by
  constructor
  · intro inverse
    have twice := built.length_FlattenedToFactorized.symm.trans inverse.entries
    exact List.length_eq_zero_iff.mp (by omega)
  · rintro rfl
    obtain ⟨factorized, flattened, same⟩ := built.inverse_maps List.nodup_nil (Nat.zero_le _)
    refine ⟨factorized, flattened, built.length_FlattenedToFactorized, ?_, same⟩
    exact fun i below => absurd below (Nat.not_lt_zero i)

end Inverse

/-- The tables that `set_dims` makes are inverse to each other just when there is no dimension. -/
theorem set_dims_inverse_iff (dims : List String) :
    ∃ shape, set_dims empty dims = .ok shape ∧ (shape.Inverse dims ↔ dims = []) :=
  ⟨_, rfl, (built_foldl dims).inverse_iff⟩

theorem flattened_twice :
    ¬ ∀ dims : List String, dims.Nodup →
      ∃ shape, set_dims empty dims = .ok shape ∧ shape.Inverse dims := by
  intro all
  obtain ⟨shape, call, inverse⟩ := all ["M", "N", "K"] (by decide)
  have entry := inverse.entry 1 (by decide)
  cases call
  exact absurd entry (by decide)

end DimTables

end TileExp.Problem
