import Latias.Analysis.PerfState

namespace TileExp.Analysis

def lastLeaf : Node → Node
  | .mk info cs => lastLeaves (.mk info []) cs
where
  lastLeaves (found : Node) : List Node → Node
    | [] => found
    | c :: cs => lastLeaves (lastLeaf c) cs

/-- `findLastOpTrans`: the last child of each node, down to the first Op or Trans. -/
def findLastOpTrans : Node → Exec String
  | .mk info cs =>
    if info.kind.type_ = .Op ∨ info.kind.type_ = .Trans then .ok info.target_level_name
    else findLast (.error .outOfRange) cs
where
  findLast (found : Exec String) : List Node → Exec String
    | [] => found
    | c :: cs => findLast (findLastOpTrans c) cs

variable (ev : Evaluator)

def climbToTile : NodePtr → Exec NodePtr
  | [] => if ev.get_type [] = .Tile then .ok [] else .error .nullPointer
  | i :: parent =>
    if ev.get_type (i :: parent) = .Tile then .ok (i :: parent) else climbToTile parent

def parentTileLevel (node : NodePtr) : Exec String :=
  match get_parent node with
  | none => .error .nullPointer
  | some parent => do
    let parent_node ← climbToTile ev parent
    .ok (ev.target_level parent_node)

def findCurrentNodePosition : NodePtr → Nat
  | [] => 0
  | i :: _ => i

def climbToTrans : NodePtr → Exec (String × Bool)
  | [] => .error .nullPointer
  | i :: parent =>
    if i + 1 = (ev.ori_node_ parent).children.length then climbToTrans parent
    else do
      let target_node ← ev.child parent (i + 1)
      tileexpAssert (ev.get_type target_node = .Trans) "findTarget fail"
      .ok (ev.target_level target_node, true)

def findTarget (node : NodePtr) : Exec (String × Bool) :=
  if (ev.ori_node_ node).dataflow_mode_ = .Forward then climbToTrans ev node
  else do
    let level ← parentTileLevel ev node
    .ok (level, false)

def tileSource (node : NodePtr) : Exec (String × Bool) := do
  let level ← parentTileLevel ev node
  .ok (level, false)

def findSource (node : NodePtr) (current_node_position : Nat) : Exec (String × Bool) :=
  if (ev.ori_node_ node).dataflow_mode_ = .Forward then
    match get_parent node with
    | none => .error .nullPointer
    | some parent =>
      if (ev.ori_node_ parent).children.length = 1 ∨ current_node_position = 0 then
        tileSource ev node
      else do
        let former_node ← ev.child parent (current_node_position - 1)
        if ev.get_type former_node = .Trans then
          if current_node_position < 2 then .error .outOfRange
          else
            let former_node ← ev.child parent (current_node_position - 2)
            let source := lastLeaf (ev.ori_node_ former_node)
            tileexpAssert (source.get_type = .Op) "Source is not Op node"
            .ok (source.get_target_level_name, true)
        else tileSource ev node
  else tileSource ev node

/-- `int((data_movement + bandwidth - 1) / bandwidth)`. -/
def transferLatency (data_movement : Int) (bandwidth : Nat) : Exec Int := do
  let quotient ← divide (data_movement + bandwidth - 1) bandwidth
  .ok (ev.toInt quotient)

def getOutputLatency (node : NodePtr) (data_movement : Int) : Exec Int :=
  if ev.get_type node = .Scope ∨ ev.get_type node = .Trans then .ok 0
  else do
    let source_level ←
      if (ev.ori_node_ node).dataflow_mode_ ≠ .Forward then .ok (ev.target_level node)
      else findLastOpTrans (ev.ori_node_ node)
    if get_parent node = none then .ok 0
    else
      let target_level ← findTarget ev node
      let bandwidth ← ev.intercon_.bandwidth_ (source_level ++ "2" ++ target_level.1)
      transferLatency ev data_movement bandwidth

def transInputLatency (node : NodePtr) (dm_trans : Int) : Exec Int :=
  if dm_trans > 0 ∧ get_parent node ≠ none then do
    let source_level ← findSource ev node (findCurrentNodePosition node)
    let bandwidth ← ev.intercon_.bandwidth_ (source_level.1 ++ "2" ++ ev.target_level node)
    transferLatency ev dm_trans bandwidth
  else .ok 0

def tileInputLatency (node : NodePtr) (dm_tile : Int) : Exec Int :=
  if dm_tile > 0 ∧ get_parent node ≠ none then do
    let source_level ← findSource ev node (findCurrentNodePosition node)
    if ev.target_level node = source_level.1 then .ok 0
    else
      let bandwidth ← ev.intercon_.bandwidth_ (source_level.1 ++ "2" ++ ev.target_level node)
      transferLatency ev dm_tile bandwidth
  else .ok 0

def getInputLatency (node : NodePtr) (dm_tile dm_trans : Int) : Exec Int :=
  if ev.get_type node = .Scope then .ok 0
  else do
    let trans_latency ← transInputLatency ev node dm_trans
    let tile_latency ← tileInputLatency ev node dm_tile
    .ok (ev.toInt (trans_latency + tile_latency))

def getInterConNode (node : NodePtr) (idx : Nat) : Exec InterConNode := do
  let first ← ev.child node 0
  let holder := if ev.get_type first = .Scope then first else node
  let child ← ev.child holder idx
  let source_name ←
    if ev.get_type child = .Trans then
      if idx = 0 then .error .outOfRange
      else do
        let prev_child ← ev.child holder (idx - 1)
        .ok (lastLeaf (ev.ori_node_ prev_child)).get_target_level_name
    else .ok (ev.target_level node)
  match ev.intercon_.intercon_attri_map_ (source_name ++ "2" ++ ev.target_level child) with
  | some node => .ok node
  | none => .error (.assertion "Do not find inter-connection")

/-- A `Latency` of a whole block: input, process and output. -/
structure BlockLatency where
  input_latency_ : Int
  process_latency_ : Int
  output_latency_ : Int
  deriving DecidableEq, Repr

/-- What a link makes of one child's transfers. Link types that are neither half nor full duplex
    keep the value of the child before. -/
def linkLatency (interConType : ConType) (dm_latency : Int) (latency : Latency) : Int :=
  match interConType with
  | .HD => ev.toInt (latency.input_latency_ + latency.output_latency_)
  | .FD => ev.toInt (max latency.input_latency_ latency.output_latency_)
  | _ => dm_latency

def addChildLatency (scope_type : ScopeType) (dm_latency : Int) (latency : Latency)
    (result : BlockLatency) : BlockLatency :=
  match scope_type with
  | .Pipeline =>
    ⟨result.input_latency_ + dm_latency, result.process_latency_ + latency.process_latency_,
      result.output_latency_ + dm_latency⟩
  | .Sequential =>
    ⟨result.input_latency_ + (latency.output_latency_ + latency.input_latency_),
      result.process_latency_ + latency.process_latency_,
      result.output_latency_ + (latency.output_latency_ + latency.input_latency_)⟩
  | .Parallel =>
    ⟨max result.input_latency_ latency.input_latency_,
      max result.process_latency_ latency.process_latency_,
      max result.output_latency_ latency.output_latency_⟩
  | _ => result

def scopeLatencyLoop (node : NodePtr) (scope_type : ScopeType) :
    Nat → Int → BlockLatency → List Latency → Exec BlockLatency
  | _, _, result, [] => .ok result
  | child_num, dm_latency, result, latency :: rest => do
    let interConNode ← getInterConNode ev node child_num
    let dm_latency := linkLatency ev interConNode.con_type_ dm_latency latency
    scopeLatencyLoop node scope_type (child_num + 1) dm_latency
      (addChildLatency scope_type dm_latency latency result) rest

def computeScopeLatency (node : NodePtr) (latency_vec : List Latency) (scope_type : ScopeType) :
    Exec BlockLatency := do
  let _ ← ev.child node 0
  scopeLatencyLoop ev node scope_type 0 0 ⟨0, 0, 0⟩ latency_vec

/-- The scope type `computeLatency` takes from the first child. -/
def scopeTypeOf (node : Node) : ScopeType :=
  match node.value.kind with
  | .Scope type => type
  | _ => .Pipeline

def maxOf (latency : BlockLatency) : Int :=
  max (max latency.input_latency_ latency.process_latency_) latency.output_latency_

def temporalLatency (node : NodePtr) (scopeType : ScopeType) :
    BlockLatency → List (List Latency) → Exec BlockLatency
  | total_latency, [] => .ok total_latency
  | total_latency, latency :: rest => do
    let block_latency ← computeScopeLatency ev node latency scopeType
    temporalLatency node scopeType
      ⟨total_latency.input_latency_ + block_latency.input_latency_,
        total_latency.process_latency_ + block_latency.process_latency_,
        total_latency.output_latency_ + block_latency.output_latency_⟩ rest

def groupLatency (node : NodePtr) (scopeType : ScopeType) (interConType : ConType) :
    BlockLatency × Int → List (List Latency) → Exec (BlockLatency × Int)
  | totals, [] => .ok totals
  | (total_latency, core_latency), latency :: rest => do
    let block_latency ← computeScopeLatency ev node latency scopeType
    groupLatency node scopeType interConType
      (match interConType with
        | .UC =>
          (⟨max block_latency.input_latency_ total_latency.input_latency_,
            max block_latency.process_latency_ total_latency.process_latency_,
            max block_latency.output_latency_ total_latency.output_latency_⟩, core_latency)
        | .BC =>
          (total_latency, max core_latency (block_latency.input_latency_ +
            block_latency.output_latency_ + block_latency.process_latency_))
        | _ => (total_latency, core_latency)) rest

/-- The outer loop of a Spatial tile: round `i` takes the rows from `i * fanout` on. -/
def spatialLatency (node : NodePtr) (scopeType : ScopeType) (interConType : ConType)
    (fanout_ repeat_ : Nat) (latency_vec : List (List Latency)) :
    Nat → BlockLatency → Int → Nat → Exec Int
  | _, _, result_latency, 0 => .ok result_latency
  | i, total_latency, result_latency, rounds + 1 => do
    let group := (latency_vec.drop (i * fanout_)).take fanout_
    let (total_latency, core_latency) ←
      groupLatency ev node scopeType interConType (total_latency, 0) group
    let core_latency :=
      if interConType = .UC then
        max total_latency.input_latency_ total_latency.output_latency_ *
          ((repeat_ : Int) - i * fanout_) + total_latency.process_latency_
      else core_latency
    spatialLatency node scopeType interConType fanout_ repeat_ latency_vec (i + 1) total_latency
      (result_latency + core_latency) rounds

def isTemporal (node : Node) : Bool :=
  match node.value.kind with
  | .Tile type_ _ => type_ = .Temporal
  | _ => false

def computeLatency (node : NodePtr) (latency_vec : List (List Latency)) : Exec Int := do
  tileexpAssert (latency_vec.length ≠ 0) "latency_vec is empty"
  let latency_num := latency_vec.length
  let child ← ev.child node 0
  let scopeType := scopeTypeOf (ev.ori_node_ child)
  let interConNode ← getInterConNode ev node 0
  if isTemporal (ev.ori_node_ node) then
    let total_latency ← temporalLatency ev node scopeType ⟨0, 0, 0⟩ latency_vec
    .ok (maxOf total_latency)
  else if interConNode.fanout_ = 0 then .error .divisionByZero
  else
    let repeat_ := (latency_num + interConNode.fanout_ - 1) / interConNode.fanout_
    spatialLatency ev node scopeType interConNode.con_type_ interConNode.fanout_ repeat_
      latency_vec 0 ⟨0, 0, 0⟩ 0 repeat_

end TileExp.Analysis
