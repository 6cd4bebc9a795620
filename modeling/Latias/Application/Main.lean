import Latias.Analysis.Evaluate
import Latias.Mapping.ParseNode
import Latias.Model.ArchTopology
import Latias.Model.Interconnection
import Latias.Problem.ParseWorkloads

/-! `main`: from the sections of a configuration to the evaluation. -/

namespace TileExp.Application

open Analysis Mapping Problem

structure Configuration where
  macros : Macros
  arch : List LevelConfig
  connection : List Connection
  problem : ProblemConfig
  mapping : Rose NodeConfig

/-- What the language leaves to its implementation: the groups of a match, the orders of hash tables,
    the conversion to `int`, and what the `dataflow_mode_` of a Scope happens to be. -/
structure Platform where
  re : Regex.Search factorPattern
  keyOrder : KeyOrder
  hash_ : HashOrder
  toInt : Int → Int
  indeterminate : DataflowMode

namespace Platform

variable (platform : Platform)

def base (node : NodeBase) (kind : NodeKind) : NodeInfo where
  name_ := node.name_
  target_level_name := node.target_level_name
  dataflow_mode_ := node.dataflow_mode_.getD platform.indeterminate
  kind := kind

def info : ParsedNode → NodeInfo
  | .Tile node =>
    platform.base node.toNodeBase (.Tile node.type_ (node.loopnests_.map Loop.toDescriptor))
  | .Op node => platform.base node.toNodeBase (.Op (node.loopnests_.map Loop.toDescriptor))
  | .Scope node => platform.base node.toNodeBase (.Scope node.type)
  | .Trans node => platform.base node.toNodeBase .Trans

def globals (macros : Macros) (LevelName2IdxMap : String → Option Nat)
    (workloads_ : TileExp.Workloads) : Globals where
  re := platform.re
  macros := macros
  LevelName2IdxMap := LevelName2IdxMap
  workloads_ := workloads_
  keyOrder := platform.keyOrder

def evaluator (workloads_ : TileExp.Workloads) (arch_topo_ : ArchTopo) (intercon_ : InterCon)
    (tree : Rose ParsedNode) : Evaluator where
  workloads_ := workloads_
  arch_topo_ := arch_topo_
  intercon_ := intercon_
  root_ := tree.map platform.info
  hash_ := platform.hash_
  toInt := platform.toInt

/-- `main` up to the `Evaluator`. -/
def configure (config : Configuration) : Exec Evaluator := do
  let archTopo_ ← ParseArchTopology config.arch
  let (interCon_, touched) ← ParseInterConnection archTopo_.toArchTopo config.connection
  let workloads_instance_ ← ParseWorkloads config.problem
  let g := platform.globals config.macros archTopo_.archTopoName2Idx_map_ workloads_instance_
  let (_, tree) ← RecursiveParse g .empty config.mapping
  .ok (platform.evaluator workloads_instance_ touched interCon_ tree)

def main (config : Configuration) : Exec EvalState := do
  let evaluator_ ← platform.configure config
  evaluator_.evaluate evaluator_.construct

end Platform

end TileExp.Application
