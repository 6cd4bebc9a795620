import Latias.Common
import Latias.Library.RoseTree

namespace TileExp

structure Descriptor where
  name_ : String
  start : Int
  end_ : Int
  residual_end : Int
  stride : Int
  deriving DecidableEq, Repr

inductive ScopeType where
  | Sequential
  | Parallel
  | Sharing
  | Pipeline
  | Ring
  | Mesh
  deriving DecidableEq, Repr

inductive TileType where
  | Temporal
  | Spatial
  deriving DecidableEq, Repr

inductive DataflowMode where
  | Forward
  | Write_back
  deriving DecidableEq, Repr

inductive NodeType where
  | Tile
  | Op
  | Scope
  | Trans
  deriving DecidableEq, Repr

/-- What the four constructors add to `Node`. Only `TileNode` and `OpNode` fill `loopnests_`. -/
inductive NodeKind where
  | Tile (type_ : TileType) (loopnests_ : List Descriptor)
  | Op (loopnests_ : List Descriptor)
  | Scope (type : ScopeType)
  | Trans
  deriving DecidableEq, Repr

structure NodeInfo where
  name_ : String
  target_level_name : String
  dataflow_mode_ : DataflowMode
  kind : NodeKind
  deriving DecidableEq, Repr

abbrev Node := Rose NodeInfo

/-- A `const Node*`, and the `EvaNode*` that `BuildNewTree` makes for it. -/
abbrev NodePtr := Rose.Address

namespace NodeKind

def type_ : NodeKind → NodeType
  | Tile _ _ => .Tile
  | Op _ => .Op
  | Scope _ => .Scope
  | Trans => .Trans

def loopnests_ : NodeKind → List Descriptor
  | Tile _ loops => loops
  | Op loops => loops
  | Scope _ => []
  | Trans => []

end NodeKind

namespace Node

def get_type (node : Node) : NodeType := node.value.kind.type_

def loopnests_ (node : Node) : List Descriptor := node.value.kind.loopnests_

def get_target_level_name (node : Node) : String := node.value.target_level_name

def get_name (node : Node) : String := node.value.name_

def dataflow_mode_ (node : Node) : DataflowMode := node.value.dataflow_mode_

end Node

end TileExp
