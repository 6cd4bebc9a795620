import Latias.Library.Checked
import Latias.Library.Keys
import Latias.Common
import Mathlib.Data.List.Sort

/-! `Shape::Parse`: the tables of one op. -/

namespace TileExp.Problem

/-- The `projection` of a data space: an array of dimension names, or a list of expressions, each a
    list of terms of one or two strings. -/
inductive ProjectionConfig where
  | array (dim_names : List String)
  | list (dimensions : List (List (List String)))

structure DataSpaceConfig where
  name : String
  projection : ProjectionConfig

structure ShapeConfig where
  dimensions : List String
  coefficients : List String
  flatten : Option (List (String × List String))
  data_spaces : List DataSpaceConfig

/-- One data space of an op. A term has the id of its coefficient, or `NumCoefficients`, and the id
    of its dimension. -/
structure DataSpace where
  name : String
  order : Nat
  projection : List (List (Nat × Nat))
  deriving DecidableEq, Repr

/-- `problem::Shape` of one op. The ids of the maps from ids are consecutive from 0, so these maps
    are lists. -/
structure OpShape where
  FactorizedDimensionIDToName : List String
  FactorizedDimensionNameToID : Table Nat
  FlattenedDimensionIDToName : List String
  CoefficientIDToName : List String
  CoefficientNameToID : Table Nat
  data_spaces : List DataSpace

def nameToID (names : List String) : Table Nat :=
  Keys.insertAll Prod.fst Prod.snd names.zipIdx ∅

def atName (table : Table Nat) (name : String) : Exec Nat :=
  match table.lookup name with
  | some id => .ok id
  | none => .error .outOfRange

def flattenDimension (dims : Table Nat) (used : List Nat) (factorized_name : String) :
    Exec (List Nat) := do
  let factorized_id ← atName dims factorized_name
  tileexpAssert (factorized_id ∉ used) "FactorizedToFlattened"
  .ok (used ++ [factorized_id])

def flattenedNames (config : ShapeConfig) (dims : Table Nat) : Exec (List String) := do
  let flattened_list := config.flatten.getD []
  let used ← (flattened_list.flatMap Prod.snd).foldlM (flattenDimension dims) []
  let unused := config.dimensions.zipIdx.filter fun dim => dim.2 ∉ used
  .ok (flattened_list.map Prod.fst ++ unused.map Prod.fst)

def parseTerm (dims coefficients : Table Nat) (NumCoefficients : Nat) :
    List String → Exec (Nat × Nat)
  | [dim_name] => do
    let dim_id ← atName dims dim_name
    .ok (NumCoefficients, dim_id)
  | [dim_name, coeff_name] => do
    let dim_id ← atName dims dim_name
    let coeff_id ← atName coefficients coeff_name
    .ok (coeff_id, dim_id)
  | _ => .error (.assertion "term")

def parseProjection (dims coefficients : Table Nat) (NumCoefficients : Nat) :
    ProjectionConfig → Exec (List (List (Nat × Nat)))
  | .array dim_names => dim_names.mapM fun dim_name => do
    let term ← parseTerm dims coefficients NumCoefficients [dim_name]
    .ok [term]
  | .list dimensions => dimensions.mapM fun dimension =>
    dimension.mapM (parseTerm dims coefficients NumCoefficients)

def parseDataSpace (dims coefficients : Table Nat) (NumCoefficients : Nat)
    (data_space : DataSpaceConfig) : Exec DataSpace := do
  let projection ← parseProjection dims coefficients NumCoefficients data_space.projection
  .ok ⟨data_space.name, projection.length, projection⟩

/-- `Shape::Parse`. The names of dimensions have one character. -/
def Parse (shape : ShapeConfig) : Exec OpShape := do
  tileexpAssert (∀ dim_name ∈ shape.dimensions, dim_name.utf8ByteSize = 1)
    "dimension names can only be 1 character in length"
  let dims := nameToID shape.dimensions
  let coefficients := nameToID shape.coefficients
  let flattened ← flattenedNames shape dims
  let data_spaces ← shape.data_spaces.mapM
    (parseDataSpace dims coefficients shape.coefficients.length)
  .ok ⟨shape.dimensions, dims, flattened, shape.coefficients, coefficients, data_spaces⟩

namespace OpShape

def NumCoefficients (shape : OpShape) : Nat := shape.CoefficientIDToName.length

structure WellFormed (shape : OpShape) : Prop where
  coefficients : ∀ name, name ∈ shape.CoefficientIDToName ↔ name ∈ shape.CoefficientNameToID
  terms : ∀ space ∈ shape.data_spaces, ∀ expr ∈ space.projection, ∀ term ∈ expr,
    term.1 ≤ shape.NumCoefficients ∧ term.2 < shape.FactorizedDimensionIDToName.length

def coefficientNames (shape : OpShape) : List String :=
  shape.CoefficientNameToID.keys.insertionSort (· ≤ ·)

end OpShape

open Checked

variable {names : List String} {name : String} {id : Nat}

theorem lookup_nameToID (found : (nameToID names).lookup name = some id) :
    names[id]? = some name := by
  rcases Keys.exists_of_lookup_insertAll found with ⟨⟨n, i⟩, member, rfl, rfl⟩ | before
  · exact List.mk_mem_zipIdx_iff_getElem?.mp member
  · cases before

theorem mem_nameToID : name ∈ nameToID names ↔ name ∈ names := by
  rw [nameToID, Keys.mem_keys_insertAll, List.zipIdx_map_fst]
  exact or_iff_left (AList.notMem_empty name)

theorem atName_eq_ok {table : Table Nat} (call : atName table name = .ok id) :
    table.lookup name = some id := by
  unfold atName at call
  split at call
  · next found =>
    cases call
    exact found
  · cases call

theorem parseTerm_valid {dims coefficients : List String} {strings : List String} {term : Nat × Nat}
    (call : parseTerm (nameToID dims) (nameToID coefficients) coefficients.length strings =
      .ok term) : term.1 ≤ coefficients.length ∧ term.2 < dims.length := by
  have inside {names : List String} {name : String} {id : Nat}
      (call : atName (nameToID names) name = .ok id) : id < names.length :=
    (List.getElem?_eq_some_iff.mp (lookup_nameToID (atName_eq_ok call))).1
  unfold parseTerm at call
  split at call
  · obtain ⟨dim_id, dim, result⟩ := bind_eq_ok.mp call
    cases result
    exact ⟨Nat.le_refl _, inside dim⟩
  · obtain ⟨dim_id, dim, call⟩ := bind_eq_ok.mp call
    obtain ⟨coeff_id, coefficient, result⟩ := bind_eq_ok.mp call
    cases result
    exact ⟨Nat.le_of_lt (inside coefficient), inside dim⟩
  · cases call

theorem parseProjection_valid {dims coefficients : List String} {config : ProjectionConfig}
    {projection : List (List (Nat × Nat))}
    (call : parseProjection (nameToID dims) (nameToID coefficients) coefficients.length config =
      .ok projection) : ∀ expr ∈ projection, ∀ term ∈ expr,
        term.1 ≤ coefficients.length ∧ term.2 < dims.length := by
  intro expr inside term member
  cases config with
  | array dim_names =>
    obtain ⟨dim_name, _, made⟩ := mem_of_mapM call inside
    obtain ⟨first, parsed, result⟩ := bind_eq_ok.mp made
    cases result
    cases List.mem_singleton.mp member
    exact parseTerm_valid parsed
  | list dimensions =>
    obtain ⟨dimension, _, made⟩ := mem_of_mapM call inside
    obtain ⟨strings, _, parsed⟩ := mem_of_mapM made member
    exact parseTerm_valid parsed

theorem Parse_wellFormed {config : ShapeConfig} {shape : OpShape} (call : Parse config = .ok shape) :
    shape.WellFormed := by
  obtain ⟨_, _, call⟩ := bind_eq_ok.mp call
  obtain ⟨flattened, _, call⟩ := bind_eq_ok.mp call
  obtain ⟨data_spaces, parsed, result⟩ := bind_eq_ok.mp call
  cases result
  constructor
  · exact fun name => mem_nameToID.symm
  · intro space inside
    obtain ⟨data_space, _, made⟩ := mem_of_mapM parsed inside
    obtain ⟨projection, terms, result⟩ := bind_eq_ok.mp made
    cases result
    exact parseProjection_valid terms

end TileExp.Problem
