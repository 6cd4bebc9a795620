import Latias.Problem.Shape
import Latias.Problem.Workloads

/-! `Workloads::add_workload`: the shape all ops have in common. -/

namespace TileExp.Problem

/-- `common_shape_`. A term without coefficient has the id `-1`, which is `none` here. The maps from
    consecutive ids are lists. -/
structure CommonShape where
  FactorizedDimensionIDToName : List String
  FactorizedDimensionNameToID : Table Nat
  CoefficientIDToName : List String
  CoefficientNameToID : Table Nat
  DataSpaceNameToID : Table Nat
  DataSpaceOrder : List Nat
  Projections : List (List (List (Option Nat × Nat)))

structure OpWorkload extends Workload where
  shape : OpShape

structure Workloads where
  workloads_ : Table OpWorkload
  common_shape_ : CommonShape

/-- `set_dims` on new `Workloads`, as far as `add_workload` reads it. -/
def set_dims (dims : List String) : Workloads where
  workloads_ := ∅
  common_shape_ :=
    { FactorizedDimensionIDToName := dims
      FactorizedDimensionNameToID := nameToID dims
      CoefficientIDToName := []
      CoefficientNameToID := ∅
      DataSpaceNameToID := ∅
      DataSpaceOrder := []
      Projections := [] }

/-- `new_coeff_id`. `operator[]` reads an absent name as 0. -/
def commonCoefficient (shape : OpShape) (common : CommonShape) (id : Nat) : Exec (Option Nat) :=
  if id = shape.NumCoefficients then .ok none
  else match shape.CoefficientIDToName[id]? with
    | some coeff_name => .ok (some ((common.CoefficientNameToID.lookup coeff_name).getD 0))
    | none => .error .outOfRange

def commonDimension (shape : OpShape) (common : CommonShape) (id : Nat) : Exec Nat :=
  match shape.FactorizedDimensionIDToName[id]? with
  | some dim_name => .ok ((common.FactorizedDimensionNameToID.lookup dim_name).getD 0)
  | none => .error .outOfRange

/-- What that `operator[]` does to the map: an absent name is inserted, with the id 0. -/
def insertDimension (shape : OpShape) (ids : Table Nat) (id : Nat) : Table Nat :=
  match shape.FactorizedDimensionIDToName[id]? with
  | some dim_name => if dim_name ∈ ids then ids else ids.insert dim_name 0
  | none => ids

def commonTerm (shape : OpShape) (common : CommonShape) (term : Nat × Nat) :
    Exec (Option Nat × Nat) := do
  let new_coeff_id ← commonCoefficient shape common term.1
  let new_factorized_dim ← commonDimension shape common term.2
  .ok (new_coeff_id, new_factorized_dim)

/-- The loop body over the data spaces of an op: a name that is there already keeps its
    projection. -/
def addDataSpace (shape : OpShape) (common : CommonShape) (space : DataSpace) : Exec CommonShape :=
  match common.DataSpaceNameToID.lookup space.name with
  | some id => do
    tileexpAssert (common.DataSpaceOrder[id]? = some space.order)
      ("tensor " ++ space.name ++ " has mismatched order")
    .ok common
  | none => do
    let new_proj ← space.projection.mapM fun expr => expr.mapM (commonTerm shape common)
    -- a name reads as 0 before it is inserted and after, so the insertions can come last
    .ok { common with
      FactorizedDimensionNameToID := (space.projection.flatten.map Prod.snd).foldl
        (insertDimension shape) common.FactorizedDimensionNameToID
      DataSpaceNameToID := common.DataSpaceNameToID.insert space.name common.Projections.length
      DataSpaceOrder := common.DataSpaceOrder ++ [space.order]
      Projections := common.Projections ++ [new_proj] }

/-- The loop body over the coefficients of an op, which are registered again if they are there. -/
def addCoefficient (common : CommonShape) (coeff_name : String) : CommonShape :=
  { common with
    CoefficientIDToName := common.CoefficientIDToName ++ [coeff_name]
    CoefficientNameToID := common.CoefficientNameToID.insert coeff_name
      common.CoefficientIDToName.length }

def addShape (common : CommonShape) (shape : OpShape) : Exec CommonShape := do
  tileexpAssert (∀ dim ∈ shape.FlattenedDimensionIDToName, dim ∈ common.FactorizedDimensionIDToName)
    "dimension is not declared in global scope."
  let common ← shape.data_spaces.foldlM (addDataSpace shape) common
  .ok (shape.coefficientNames.foldl addCoefficient common)

def add_workload (workloads : Workloads) (name : String) (workload : OpWorkload) :
    Exec (Workloads × Bool) :=
  if name ∈ workloads.workloads_ then .ok (workloads, false)
  else do
    let common_shape_ ← addShape workloads.common_shape_ workload.shape
    .ok (⟨workloads.workloads_.insert name workload, common_shape_⟩, true)

def addSuccessfully (workloads : Workloads) (op : String × OpWorkload) : Exec Workloads := do
  let (workloads, added) ← add_workload workloads op.1 op.2
  tileexpAssert (added = true) "add_workload"
  .ok workloads

end TileExp.Problem
