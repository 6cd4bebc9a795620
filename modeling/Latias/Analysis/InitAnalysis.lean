import Latias.Analysis.Traversal

namespace TileExp.Analysis

namespace InitAnalysis

structure CommonNodePath where
  common_node_ : Option NodePtr
  producer_path_ : List NodePtr
  consumer_path_ : List NodePtr
  deriving DecidableEq, Repr

/-- What the four passes read and write: the tensors and offsets of the nodes, and the members of
    `InitAnalysis`. -/
structure InitState extends EvaTensors, EvaOffsets where
  op_num_ : Int
  producer_map_ : Table (TensorMap × NodePtr)
  leaf_vec_ : List NodePtr

def add_input_tensors (tensorMap : TensorMap) (name : String) (node : NodePtr) (s : InitState) :
    InitState :=
  { s with input_tensors_ :=
      Function.update s.input_tensors_ node ((s.input_tensors_ node).insert name tensorMap) }

def add_output_tensors (tensorMap : TensorMap) (name : String) (node : NodePtr) (s : InitState) :
    InitState :=
  { s with output_tensors_ :=
      Function.update s.output_tensors_ node ((s.output_tensors_ node).insert name tensorMap) }

def add_dim_offset (dim_name : String) (dim_value : Int) (node : NodePtr) (s : InitState) :
    InitState :=
  { s with
    dim_offset_ := Function.update s.dim_offset_ node
      (Function.update (s.dim_offset_ node) dim_name (some dim_value)) }

def add_last_dim_offset (dim_name : String) (dim_value : Int) (node : NodePtr) (s : InitState) :
    InitState :=
  { s with
    last_dim_offset_ := Function.update s.last_dim_offset_ node
      (Function.update (s.last_dim_offset_ node) dim_name (some dim_value)) }

def initOffset (ev : Evaluator) (_ : Node) (current_node_ : NodePtr) (s : InitState) :
    Exec InitState :=
  .ok ((ev.loopnests_ current_node_).foldl
    (fun s dim => add_dim_offset dim.name_ 1 current_node_ s) s)

/-- The loop over the children for one dimension: the first of them on which `BFSOffsetLoop`
    succeeds. -/
def firstChildOffset (ev : Evaluator) (offsets : EvaOffsets) (dim_name : String) :
    List NodePtr → Option (StEd × StEd)
  | [] => none
  | eva_child :: rest =>
    match BFSOffsetLoop ev offsets eva_child dim_name with
    | some pair_tmp => some pair_tmp
    | none => firstChildOffset ev offsets dim_name rest

def setOffset (ev : Evaluator) (current_node_ : NodePtr) (s : InitState) (tmp_loop : Descriptor) :
    Exec InitState :=
  match firstChildOffset ev s.toEvaOffsets tmp_loop.name_ (ev.get_children current_node_) with
  | none => .error (.assertion "Current child has no related dim found")
  | some (offset_tmp, loop_tmp) =>
    let s := add_dim_offset tmp_loop.name_ (loop_tmp.1 * offset_tmp.1) current_node_ s
    .ok (add_last_dim_offset tmp_loop.name_ ((loop_tmp.2 - 1) * offset_tmp.1 + offset_tmp.2)
      current_node_ s)

def getOffset (ev : Evaluator) (node : Node) (current_node_ : NodePtr) (s : InitState) :
    Exec InitState :=
  if node.children.length ≠ 0 then
    if node.get_type = .Scope then .ok s
    else node.loopnests_.foldlM (setOffset ev current_node_) s
  else
    if node.get_type = .Trans then .ok s
    else .ok (node.loopnests_.foldl (fun s tmp_loop =>
      add_last_dim_offset tmp_loop.name_ 1 current_node_
        (add_dim_offset tmp_loop.name_ 1 current_node_ s)) s)

def initOpTensors (dimName : Table (List String)) (current_node_ : NodePtr) :
    List String → InitState → Exec InitState
  | [], s => .ok s
  | [tensor], s => do
    let tensorMap : TensorMap := ⟨tensor, (dimName.lookup tensor).getD [], ∅⟩
    let s := add_output_tensors tensorMap tensor current_node_ s
    tileexpAssert ((s.producer_map_.lookup tensor).isNone) "Duplicate producer tensor"
    .ok { s with producer_map_ := s.producer_map_.insert tensor (tensorMap, current_node_) }
  | tensor :: rest, s =>
    let tensorMap : TensorMap := ⟨tensor, (dimName.lookup tensor).getD [], ∅⟩
    initOpTensors dimName current_node_ rest (add_input_tensors tensorMap tensor current_node_ s)

def initOpTensor (ev : Evaluator) (_ : Node) (current_node_ : NodePtr) (s : InitState) :
    Exec InitState :=
  match ev.get_type current_node_ with
  | .Op => do
    let s := { s with op_num_ := s.op_num_ + 1 }
    let name := nameSub (ev.ori_node_ current_node_).get_name
    let tensorName ← ev.workloads_.getInOutTensor name
    let dimName ← ev.workloads_.getDimName tensorName
    let s := { s with leaf_vec_ := s.leaf_vec_ ++ [current_node_] }
    initOpTensors dimName current_node_ tensorName s
  | .Trans => .ok { s with leaf_vec_ := s.leaf_vec_ ++ [current_node_] }
  | _ => .ok s

/-- The loop over `target_path` for one node of `source_path`: `j` where it stopped, and the
    common node if it found one. -/
def scanTarget (ev : Evaluator) (source : NodePtr) : Nat → List NodePtr → Nat × Option NodePtr
  | j, [] => (j, none)
  | j, target :: rest =>
    if ev.get_type target = .Scope then scanTarget ev source (j + 1) rest
    else if source = target then (j, some target)
    else scanTarget ev source (j + 1) rest

def scanSource (ev : Evaluator) (target_path : List NodePtr) :
    Nat → Nat → List NodePtr → Nat × Nat × Option NodePtr
  | i, j, [] => (i, j, none)
  | i, _, source :: rest =>
    if ev.get_type source = .Scope then scanSource ev target_path (i + 1) 0 rest
    else
      match scanTarget ev source 0 target_path with
      | (j, some common) => (i, j, some common)
      | (j, none) => scanSource ev target_path (i + 1) j rest

def findCommonNode (ev : Evaluator) (leaf_vec_ : List NodePtr) (source target : NodePtr) :
    Exec CommonNodePath := do
  let source_path := Rose.ancestors source
  let target_path := Rose.ancestors target
  let (i, j, common_node) := scanSource ev target_path 0 0 source_path
  let source_idx := leaf_vec_.idxOf source
  let target_idx := leaf_vec_.idxOf target
  let distance : Int := target_idx - source_idx
  let source_path ←
    -- `begin() + i - 1` lies before `begin()` when `i` is 0
    if distance = 1 then
      if i = 0 then .error .outOfRange else .ok (source_path.take (i - 1))
    else .ok ((leaf_vec_.drop (source_idx + 1)).take (distance - 1).toNat)
  let target_path := target_path.take j
  match common_node with
  | none => .ok ⟨none, [], []⟩
  | some common_node => .ok ⟨some common_node, source_path, target_path⟩

def addPathTensor (path : List NodePtr) (tensorMap : TensorMap) (is_input : Bool)
    (s : InitState) : InitState :=
  path.foldl (fun s node =>
    if is_input then add_input_tensors tensorMap tensorMap.tensor_name_ node s
    else add_output_tensors tensorMap tensorMap.tensor_name_ node s) s

def addParentTensor (source : NodePtr) (tensorMap : TensorMap) (is_input : Bool)
    (s : InitState) : InitState :=
  addPathTensor (Rose.ancestors source) tensorMap is_input s

/-- What `initTensor` does with the output of an op: nothing unless no op is left. -/
def initOutputTensor (tensorMap : TensorMap) (current_node_ : NodePtr) (s : InitState) :
    Exec InitState :=
  if s.op_num_ = 0 then
    let s' := addPathTensor (s.leaf_vec_.drop (s.leaf_vec_.idxOf current_node_)) tensorMap false s
    match s.leaf_vec_.getLast? with
    | some last => .ok (addParentTensor last tensorMap false s')
    | none => .error .outOfRange
  else .ok s

def initInputTensor (ev : Evaluator) (tensorMap : TensorMap) (current_node_ : NodePtr)
    (s : InitState) : Exec InitState :=
  match s.producer_map_.lookup tensorMap.tensor_name_ with
  | some producer => do
    let common_node_path_ ← findCommonNode ev s.leaf_vec_ producer.2 current_node_
    let s := addPathTensor common_node_path_.producer_path_ tensorMap false s
    .ok (addPathTensor common_node_path_.consumer_path_ tensorMap true s)
  | none => .ok (addParentTensor current_node_ tensorMap true s)

def initTensors (ev : Evaluator) (dimName : Table (List String)) (current_node_ : NodePtr) :
    List String → InitState → Exec InitState
  | [], s => .ok s
  | [tensor], s =>
    initOutputTensor ⟨tensor, (dimName.lookup tensor).getD [], ∅⟩ current_node_ s
  | tensor :: rest, s => do
    let s ← initInputTensor ev ⟨tensor, (dimName.lookup tensor).getD [], ∅⟩ current_node_ s
    initTensors ev dimName current_node_ rest s

def initTensor (ev : Evaluator) (_ : Node) (current_node_ : NodePtr) (s : InitState) :
    Exec InitState :=
  if ev.get_type current_node_ = .Op then do
    let s := { s with op_num_ := s.op_num_ - 1 }
    let name := nameSub (ev.ori_node_ current_node_).get_name
    let tensorName ← ev.workloads_.getInOutTensor name
    let dimName ← ev.workloads_.getDimName tensorName
    initTensors ev dimName current_node_ tensorName s
  else .ok s

def passes (ev : Evaluator) (s : NodePtr × InitState) : Exec (NodePtr × InitState) := do
  let s ← traverse ev (initOffset ev) (fun _ _ s => .ok s) ev.root_ s
  let s ← traverse ev (fun _ _ s => .ok s) (getOffset ev) ev.root_ s
  let s ← traverse ev (fun _ _ s => .ok s) (initOpTensor ev) ev.root_ s
  traverse ev (fun _ _ s => .ok s) (initTensor ev) ev.root_ s

def initial (tree : EvaTree) : InitState where
  toEvaTensors := tree.toEvaTensors
  toEvaOffsets := tree.toEvaOffsets
  op_num_ := 0
  producer_map_ := ∅
  leaf_vec_ := []

def run (ev : Evaluator) (tree : EvaTree) : Exec (EvaTree × List NodePtr) := do
  let (_, s) ← passes ev ([], initial tree)
  .ok ({ tree with toEvaTensors := s.toEvaTensors, toEvaOffsets := s.toEvaOffsets }, s.leaf_vec_)

end InitAnalysis

end TileExp.Analysis
