import Latias.Analysis.EvaNode
import Mathlib.Algebra.Ring.Int.Defs

namespace TileExp.Analysis

/-- One iteration of a Tile's loop that has not ended: the range the loop runs over, the value of
    `*loop_start`, and what was pushed on `vec_last_dim_`. -/
structure LoopState where
  node : NodePtr
  name_ : String
  ori_start : Int
  loop_end : Int
  index : Int
  is_last : Bool
  deriving DecidableEq, Repr

structure Charge where
  tensor_name : String
  before : TensorMap
  after : TensorMap
  amount : Int

/-- The entries of the ghost log. `loops` are the iterations in progress, innermost first. -/
inductive Event where
  | enter (node eva : NodePtr) (loops : List LoopState) (skew : String → Int)
  | charge (eva : NodePtr) (is_input : Bool) (loops : List LoopState) (charges : List Charge)
  | opCharge (eva : NodePtr) (loops : List LoopState) (input_dm output_dm : Int)
  | row (eva : NodePtr) (row : List Latency)
  | compute (eva : NodePtr) (rows : List (List Latency))
  | leave (node eva : NodePtr)

/-- Where the traversal stands: what each visit puts back before it returns. The ghost
    `current_loop_state_` keeps the iterations in progress. -/
@[ext] structure Walk extends EvaStacks where
  current_node_ : NodePtr
  vec_last_dim_ : String → List Bool
  current_loop_state_ : List LoopState

/-- What the visits leave behind. `log` is ghost. -/
structure Tally extends EvaTensors, EvaLatencies where
  current_dim_skew_ : NodePtr → String → Int
  dim_skew : String → Int
  data_movements_ : Int
  log : List Event

structure PerfState where
  walk : Walk
  tally : Tally

structure PerfContext where
  ev : Evaluator
  offsets : EvaOffsets
  leaf_vec_ : List NodePtr

def PerfContext.dim_offset_ (ctx : PerfContext) (node : NodePtr) (dim_name : String) : StEd :=
  ((ctx.offsets.dim_offset_ node dim_name).getD 0,
    (ctx.offsets.last_dim_offset_ node dim_name).getD 0)

namespace Walk

def moveTo (w : Walk) (node : NodePtr) : Walk := { w with current_node_ := node }

def setStart (w : Walk) (node : NodePtr) (idx : Nat) (value : Int) : Walk :=
  { w with start := Function.update w.start node (Function.update (w.start node) idx value) }

def push (w : Walk) (loop : LoopState) (offset : StEd) : Walk :=
  let node := w.current_node_
  { w with
    vec_last_dim_ := Function.update w.vec_last_dim_ loop.name_
      (loop.is_last :: w.vec_last_dim_ loop.name_)
    current_dim_range_ := Function.update w.current_dim_range_ node
      (Function.update (w.current_dim_range_ node) loop.name_
        ((loop.ori_start, loop.loop_end) :: w.current_dim_range_ node loop.name_))
    current_offset_ := Function.update w.current_offset_ node
      (Function.update (w.current_offset_ node) loop.name_
        (offset :: w.current_offset_ node loop.name_))
    ori_start_ := Function.update w.ori_start_ node (loop.ori_start :: w.ori_start_ node)
    current_start_ := Function.update w.current_start_ node (loop.index :: w.current_start_ node)
    current_loop_state_ := loop :: w.current_loop_state_ }

def pop (w : Walk) (dim_name : String) : Walk :=
  let node := w.current_node_
  { w with
    vec_last_dim_ := Function.update w.vec_last_dim_ dim_name (w.vec_last_dim_ dim_name).tail
    current_dim_range_ := Function.update w.current_dim_range_ node
      (Function.update (w.current_dim_range_ node) dim_name
        (w.current_dim_range_ node dim_name).tail)
    current_offset_ := Function.update w.current_offset_ node
      (Function.update (w.current_offset_ node) dim_name (w.current_offset_ node dim_name).tail)
    ori_start_ := Function.update w.ori_start_ node (w.ori_start_ node).tail
    current_start_ := Function.update w.current_start_ node (w.current_start_ node).tail
    current_loop_state_ := w.current_loop_state_.tail }

def isLastLoop (w : Walk) (dim_name : String) : Bool :=
  (w.vec_last_dim_ dim_name).all id

def isFirstLoop (loop_ori loop_current : List Int) : Bool :=
  (loop_ori.zip loop_current).all fun pair => pair.1 = pair.2

end Walk

namespace Tally

def record (t : Tally) (event : Event) : Tally := { t with log := t.log ++ [event] }

def setInputLatency (t : Tally) (node : NodePtr) (value : Int) : Tally :=
  { t with input_latency_ := Function.update t.input_latency_ node value }

def setOutputLatency (t : Tally) (node : NodePtr) (value : Int) : Tally :=
  { t with output_latency_ := Function.update t.output_latency_ node value }

def setProcessLatency (t : Tally) (node : NodePtr) (value : Int) : Tally :=
  { t with process_latency_ := Function.update t.process_latency_ node value }

def setRows (t : Tally) (node : NodePtr) (rows : List (List Latency)) : Tally :=
  { t with latency_vec_ := Function.update t.latency_vec_ node rows }

def setRow (t : Tally) (node : NodePtr) (row : List Latency) : Tally :=
  { t with latency_sub_vec_ := Function.update t.latency_sub_vec_ node row }

def latencyOf (t : Tally) (child : NodePtr) : Latency where
  input_latency_ := t.input_latency_ child
  output_latency_ := t.output_latency_ child
  process_latency_ := t.process_latency_ child
  origin := child

def clearSkew (t : Tally) (node : NodePtr) (dim_name : String) : Tally :=
  { t with
    current_dim_skew_ := Function.update t.current_dim_skew_ node
      (Function.update (t.current_dim_skew_ node) dim_name 0) }

def advanceSkew (t : Tally) (node : NodePtr) (dim_name : String) (offset : Int) : Tally :=
  { t with
    current_dim_skew_ := Function.update t.current_dim_skew_ node
      (Function.update (t.current_dim_skew_ node) dim_name
        (t.current_dim_skew_ node dim_name + offset))
    dim_skew := Function.update t.dim_skew dim_name (t.dim_skew dim_name + offset) }

def restoreSkew (t : Tally) (node : NodePtr) (dim_name : String) : Tally :=
  { t with
    dim_skew := Function.update t.dim_skew dim_name
      (t.dim_skew dim_name - t.current_dim_skew_ node dim_name) }

end Tally

end TileExp.Analysis
