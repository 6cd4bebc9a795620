import Latias.Common

namespace TileExp

structure Workload where
  ins_ : List String
  out_ : String
  deriving DecidableEq, Repr

/-- The part of `problem::Shape` behind `common_shape_` that the analysis reads. A projection is
    a list of expressions, each a list of (coefficient id, dimension id) terms. -/
structure Shape where
  FactorizedDimensionNameToID : String → Option Nat
  FactorizedDimensionIDToName : Nat → Option String
  DataSpaceNameToID : String → Option Nat
  Projections : List (List (List (Nat × Nat)))

structure Workloads where
  workloads_ : String → Option Workload
  common_shape_ : Shape
  factorized_bounds_ : Nat → Option Int

namespace Workloads

def get_workload (workloads : Workloads) (op_name : String) : Exec Workload :=
  match workloads.workloads_ op_name with
  | some workload => .ok workload
  | none => .error (.assertion (op_name ++ " Not FOUND"))

def getInOutTensor (workloads : Workloads) (name : String) : Exec (List String) := do
  let workload ← workloads.get_workload name
  .ok (workload.ins_ ++ [workload.out_])

def dimNamesOf (shape : Shape) (dataSpaceName : String) : Exec (List String) :=
  let dataSpaceID := (shape.DataSpaceNameToID dataSpaceName).getD 0
  match shape.Projections[dataSpaceID]? with
  | none => .error .outOfRange
  | some proj =>
    .ok (proj.flatMap fun expr =>
      expr.map fun term => (shape.FactorizedDimensionIDToName term.2).getD "")

def getDimName (workloads : Workloads) (tensorName : List String) : Exec (Table (List String)) :=
  tensorName.foldlM (fun (res_dim_name : Table (List String)) dataSpaceName => do
    let tmp_dim_name ← dimNamesOf workloads.common_shape_ dataSpaceName
    .ok (res_dim_name.insert dataSpaceName tmp_dim_name)) ∅

/-- `factorized_bounds[common_shape.FactorizedDimensionNameToID[dim_name]]`, where both maps read
    an absent key as 0. -/
def factorized_bound (workloads : Workloads) (dim_name : String) : Int :=
  (workloads.factorized_bounds_
    ((workloads.common_shape_.FactorizedDimensionNameToID dim_name).getD 0)).getD 0

end Workloads

end TileExp
