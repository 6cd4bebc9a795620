import Latias.Analysis.Evaluate
import Latias.Library.Machine

/-! Evaluators given by lists, as a configuration gives them. -/

namespace TileExp.Config

open Analysis

def loop (name_ : String) (end_ residual_end : Int) : Descriptor :=
  ⟨name_, 0, end_, residual_end, 1⟩

def tile (type_ : TileType) (level : String) (loops : List Descriptor) (subtree : List Node) :
    Node :=
  .mk ⟨"Tile", level, .Write_back, .Tile type_ loops⟩ subtree

def op (level name : String) (loops : List Descriptor) : Node :=
  .mk ⟨"Op::" ++ name, level, .Write_back, .Op loops⟩ []

def scope (type : ScopeType) (subtree : List Node) : Node :=
  .mk ⟨"Scope", "", .Write_back, .Scope type⟩ subtree

def trans (level : String) : Node :=
  .mk ⟨"Trans", level, .Write_back, .Trans⟩ []

def workloads (ops : List (String × Workload)) (dims : List (String × Int))
    (tensors : List (String × List String)) : Workloads where
  workloads_ := fun name => ops.lookup name
  common_shape_ :=
    { FactorizedDimensionNameToID := fun name => (dims.map Prod.fst).idxOf? name
      FactorizedDimensionIDToName := fun id => (dims.map Prod.fst)[id]?
      DataSpaceNameToID := fun name => (tensors.map Prod.fst).idxOf? name
      Projections := tensors.map fun tensor =>
        tensor.2.map fun dim => [(0, (dims.map Prod.fst).idxOf dim)] }
  factorized_bounds_ := fun id => (dims.map Prod.snd)[id]?

def intercon (links : List (String × InterConNode)) : InterCon where
  intercon_attri_map_ := fun connection => links.lookup connection

def firstKey : HashOrder where
  begin_ := fun keys => keys.headD ""
  begin_mem := by
    intro keys present
    cases keys with
    | nil => exact absurd rfl present
    | cons key keys => exact List.mem_cons_self

/-- Exact arithmetic, and every level computing in the given number of cycles. -/
def evaluator (workloads_ : Workloads) (compute_cycles : Nat)
    (links : List (String × InterConNode)) (root_ : Node) : Evaluator where
  workloads_ := workloads_
  arch_topo_ := ⟨fun _ => some ⟨1, compute_cycles⟩⟩
  intercon_ := intercon links
  root_ := root_
  hash_ := firstKey
  toInt := id

def int32 (ev : Evaluator) : Evaluator := { ev with toInt := Machine.toInt32 }

end TileExp.Config
