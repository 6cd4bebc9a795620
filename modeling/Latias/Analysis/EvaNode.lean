import Latias.Mapping.Node
import Latias.Model.Hardware
import Latias.Problem.Workloads
import Latias.Mapper.TensorMap
import Mathlib.Logic.Function.Basic

namespace TileExp.Analysis

abbrev StEd := Int × Int

/-! The members of the `EvaNode`s, one map from node to value for each member. -/

structure EvaTensors where
  input_tensors_ : NodePtr → Table TensorMap
  output_tensors_ : NodePtr → Table TensorMap

structure EvaOffsets where
  dim_offset_ : NodePtr → String → Option Int
  last_dim_offset_ : NodePtr → String → Option Int

/-- What `visitTileLoop` pushes, pops and counts. `start node i` is `loopnests_[i].start`, the one
    member of the copied descriptors that is written. The vectors keep their back at the head. -/
structure EvaStacks where
  start : NodePtr → Nat → Int
  current_dim_range_ : NodePtr → String → List StEd
  current_offset_ : NodePtr → String → List StEd
  ori_start_ : NodePtr → List Int
  current_start_ : NodePtr → List Int

structure EvaLatencies where
  input_latency_ : NodePtr → Int
  output_latency_ : NodePtr → Int
  process_latency_ : NodePtr → Int
  latency_vec_ : NodePtr → List (List Latency)
  latency_sub_vec_ : NodePtr → List Latency

structure EvaTree extends EvaTensors, EvaOffsets, EvaStacks, EvaLatencies where
  inherit_loopnests_ : NodePtr → List (List Descriptor)
  current_dim_skew_ : NodePtr → String → Int

/-- Which key `begin()` of an `unordered_map` points at, given its keys: any of them. -/
structure HashOrder where
  begin_ : List String → String
  begin_mem : ∀ keys ≠ [], begin_ keys ∈ keys

/-- What `Evaluator` refers to and never writes. `toInt` is the conversion of an `int64_t` to
    `int`: the identity where arithmetic is exact. -/
structure Evaluator where
  workloads_ : Workloads
  arch_topo_ : ArchTopo
  intercon_ : InterCon
  root_ : Node
  hash_ : HashOrder
  toInt : Int → Int

namespace Evaluator

variable (ev : Evaluator)

/-- `node->ori_node_`. Every pointer is made from the root by `child` and `get_parent`. -/
def ori_node_ (node : NodePtr) : Node :=
  (ev.root_.get? node).getD (.mk ⟨"", "", .Write_back, .Trans⟩ [])

def get_type (node : NodePtr) : NodeType := (ev.ori_node_ node).get_type

def target_level (node : NodePtr) : String := (ev.ori_node_ node).get_target_level_name

def loopnests_ (node : NodePtr) : List Descriptor := (ev.ori_node_ node).loopnests_

def get_children (node : NodePtr) : List NodePtr :=
  (List.range (ev.ori_node_ node).children.length).map (· :: node)

def child (node : NodePtr) (i : Nat) : Exec NodePtr :=
  if i < (ev.ori_node_ node).children.length then .ok (i :: node) else .error .outOfRange

end Evaluator

def get_parent : NodePtr → Option NodePtr
  | [] => none
  | _ :: parent => some parent

/-- `get_parent() != nullptr ? get_parent() : current_node_`. -/
def up (node : NodePtr) : NodePtr := (get_parent node).getD node

@[simp] theorem up_nil : up [] = [] := rfl

@[simp] theorem up_cons (i : Nat) (node : NodePtr) : up (i :: node) = node := rfl

def bfsOffsetLoop (ev : Evaluator) (offsets : EvaOffsets) (dim_name : String) :
    Nat → List NodePtr → Option (StEd × StEd)
  | 0, _ => none
  | _, [] => none
  | fuel + 1, curr :: q =>
    match offsets.dim_offset_ curr dim_name with
    | some offset =>
      let offset_pair := (offset, (offsets.last_dim_offset_ curr dim_name).getD 0)
      let loop_pair := (ev.loopnests_ curr).foldl (fun found loop =>
        if loop.name_ = dim_name then (loop.end_, loop.residual_end) else found) ((0, 0) : StEd)
      some (offset_pair, loop_pair)
    | none => bfsOffsetLoop ev offsets dim_name fuel (q ++ ev.get_children curr)

/-- `BFSOffsetLoop(node, dim_name)`. A node enters the queue once, so the size of the subtree
    bounds the number of rounds. -/
def BFSOffsetLoop (ev : Evaluator) (offsets : EvaOffsets) (node : NodePtr) (dim_name : String) :
    Option (StEd × StEd) :=
  bfsOffsetLoop ev offsets dim_name (ev.ori_node_ node).size [node]

def afterColons : List Char → Option (List Char)
  | ':' :: ':' :: rest => some rest
  | _ :: rest => afterColons rest
  | [] => none

def nameSub (input : String) : String :=
  match afterColons input.toList with
  | some rest => String.ofList rest
  | none => input

end TileExp.Analysis
