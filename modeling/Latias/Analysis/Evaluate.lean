import Latias.Analysis.GetLoopCount
import Latias.Analysis.InitAnalysis
import Latias.Analysis.PerfAnalysis

namespace TileExp.Analysis

namespace EvaTree

def fresh (ev : Evaluator) : EvaTree where
  input_tensors_ _ := ∅
  output_tensors_ _ := ∅
  dim_offset_ _ _ := none
  last_dim_offset_ _ _ := none
  start node idx := match (ev.loopnests_ node)[idx]? with
    | some loop => loop.start
    | none => 0
  current_dim_range_ _ _ := []
  current_offset_ _ _ := []
  ori_start_ _ := []
  current_start_ _ := []
  input_latency_ _ := 0
  output_latency_ _ := 0
  process_latency_ _ := 0
  latency_vec_ _ := []
  latency_sub_vec_ _ := []
  inherit_loopnests_ _ := []
  current_dim_skew_ _ _ := 0

def reset (node : NodePtr) (tree : EvaTree) : EvaTree :=
  { tree with
    inherit_loopnests_ := Function.update tree.inherit_loopnests_ node []
    input_tensors_ := Function.update tree.input_tensors_ node ∅
    output_tensors_ := Function.update tree.output_tensors_ node ∅
    last_dim_offset_ := Function.update tree.last_dim_offset_ node fun _ => none
    dim_offset_ := Function.update tree.dim_offset_ node fun _ => none
    ori_start_ := Function.update tree.ori_start_ node []
    current_start_ := Function.update tree.current_start_ node []
    current_dim_skew_ := Function.update tree.current_dim_skew_ node fun _ => 0
    latency_vec_ := Function.update tree.latency_vec_ node [] }

end EvaTree

/-- What an `Evaluator` holds between calls. `log` is the ghost log of its last `PerfAnalysis`. -/
structure EvalState where
  tree : EvaTree
  leaf_vec_ : List NodePtr
  data_movements_ : Int
  latency_ : Int
  log : List Event

namespace Evaluator

variable (ev : Evaluator)

def construct : EvalState where
  tree := EvaTree.fresh ev
  leaf_vec_ := []
  data_movements_ := 0
  latency_ := 0
  log := []

/-- `Evaluator::reset`: the root and its children. -/
def reset (tree : EvaTree) : EvaTree :=
  (ev.get_children []).foldl (fun tree child => tree.reset child) (tree.reset [])

def treeAfter (tree : EvaTree) (s : PerfState) : EvaTree :=
  { tree with
    toEvaTensors := s.tally.toEvaTensors
    toEvaStacks := s.walk.toEvaStacks
    toEvaLatencies := s.tally.toEvaLatencies
    current_dim_skew_ := s.tally.current_dim_skew_ }

def analysis_latias (state : EvalState) : Exec EvalState := do
  let s ← PerfAnalysis.run ev state.tree state.leaf_vec_
  .ok { tree := treeAfter state.tree s
        leaf_vec_ := state.leaf_vec_
        data_movements_ := s.tally.data_movements_
        latency_ := s.tally.process_latency_ s.walk.current_node_
        log := s.tally.log }

def init_analysis (state : EvalState) : Exec EvalState := do
  let (tree, leaf_vec_) ← InitAnalysis.run ev state.tree
  .ok { state with tree, leaf_vec_ }

def get_loop_count (state : EvalState) : Exec EvalState := do
  let tree ← GetLoopCount.run ev state.tree
  .ok { state with tree }

def evaluate (state : EvalState) : Exec EvalState := do
  let state ← ev.get_loop_count { state with tree := ev.reset state.tree }
  let state ← ev.init_analysis state
  ev.analysis_latias state

end Evaluator

end TileExp.Analysis
