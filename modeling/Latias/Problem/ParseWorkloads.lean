import Latias.Problem.AddWorkload
import Latias.Problem.Split

/-! `ParseWorkloads`: the workloads of a problem configuration. -/

namespace TileExp.Problem

structure OpConfig where
  name : String
  shape : ShapeConfig
  ins : String
  out : String
  type : String

/-- What `ParseWorkloads` looks up. `ops` is the list of that name, or the problem itself when there
    is none. `instance_` gives the bounds, with the macros put in. -/
structure ProblemConfig where
  io : Option (String × String)
  dimensions : List String
  ops : List OpConfig
  instance_ : String → Option Int

def workloadTypes : List String := ["MATRIX", "MAC", "VECTOR", "VEC", "BUFFER"]

/-- `ParseWorkload`, without the densities. -/
def ParseWorkload (config : OpConfig) : Exec OpWorkload := do
  let shape ← Parse config.shape
  let outs := Split config.out
  tileexpAssert (outs.length = 1) "Currently, we only support op with single output"
  tileexpAssert (config.type ∈ workloadTypes) ("Unknown workload type: " ++ config.type)
  .ok ⟨⟨Split config.ins, outs.headD ""⟩, shape⟩

/-- The ids the analysis reads. The id of a term without coefficient is `(unsigned)-1`. -/
def CommonShape.toShape (common : CommonShape) : Shape where
  FactorizedDimensionNameToID := fun name => common.FactorizedDimensionNameToID.lookup name
  FactorizedDimensionIDToName := fun id => common.FactorizedDimensionIDToName[id]?
  DataSpaceNameToID := fun name => common.DataSpaceNameToID.lookup name
  Projections := common.Projections.map fun proj => proj.map fun expr => expr.map fun term =>
    (term.1.getD (2 ^ 32 - 1), term.2)

def parseOp (workloads : Workloads) (op : OpConfig) : Exec Workloads := do
  let workload ← ParseWorkload op
  addSuccessfully workloads (op.name, workload)

/-- `set_factorized_bound`, with the table as a list that the last write for an id heads. -/
def setBounds (config : ProblemConfig) (ids : Table Nat) : Exec (List (Nat × Int)) :=
  config.dimensions.foldlM (fun bounds dim =>
    match config.instance_ dim, ids.lookup dim with
    | some bound, some id => .ok ((id, bound) :: bounds)
    | none, _ => .error (.assertion ("no instance passed for axis " ++ dim ++ "."))
    | _, none => .error (.assertion "FactorizedDimensionNameToID.count(dim)")) []

def ParseWorkloads (config : ProblemConfig) : Exec TileExp.Workloads := do
  tileexpAssert config.io.isSome "No io found in problem."
  let workloads ← config.ops.foldlM parseOp (set_dims config.dimensions)
  let factorized_bounds ← setBounds config workloads.common_shape_.FactorizedDimensionNameToID
  .ok
    { workloads_ := fun name => (workloads.workloads_.lookup name).map OpWorkload.toWorkload
      common_shape_ := workloads.common_shape_.toShape
      factorized_bounds_ := fun id => factorized_bounds.lookup id }

end TileExp.Problem
