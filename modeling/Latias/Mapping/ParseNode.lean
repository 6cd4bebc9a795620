import Latias.Mapping.Factors
import Latias.Mapping.Node
import Latias.Problem.Workloads
import Mathlib.Data.List.Infix

/-! `RecursiveParse`: the tree of a mapping from its configuration. -/

namespace TileExp.Mapping

open Regex TileExp.Symbol

inductive Setting where
  | absent
  | scalar (value : String)
  | compound
  deriving DecidableEq, Repr

namespace Setting

def exists_ : Setting → Bool
  | absent => false
  | scalar _ => true
  | compound => true

def lookupValue : Setting → Option String
  | absent => none
  | scalar value => some value
  | compound => none

end Setting

/-- What the constructors look up. Reading `split` as an `unsigned` may fail. -/
structure NodeConfig where
  node_type : Setting
  target : Setting
  dataflow_mode : Setting
  tag : Setting
  type : Setting
  name : Setting
  factors : Setting
  permutation : Setting
  split : Option (Exec Nat)

/-- The order in which an `unordered_map` with these keys is walked through. -/
structure KeyOrder where
  order : List String → List String
  perm : ∀ keys, (order keys).Perm keys

structure Globals where
  re : Search factorPattern
  macros : Macros
  LevelName2IdxMap : String → Option Nat
  workloads_ : Workloads
  keyOrder : KeyOrder

inductive Dimension where
  | Time
  | SpaceX
  | SpaceY
  deriving DecidableEq, Repr

def IsSpatial (dim : Dimension) : Bool := dim ≠ .Time

structure Loop extends Descriptor where
  dimension : Nat
  spacetime_dimension : Dimension
  deriving DecidableEq, Repr

/-- `Node` without its children. `target_level_id` and `dataflow_mode_` of a Scope may stay
    uninitialized. -/
structure NodeBase where
  name_ : String
  target_level_name : String
  target_level_id : Option Nat
  dataflow_mode_ : Option DataflowMode
  deriving DecidableEq, Repr

structure TileNode extends NodeBase where
  type_ : TileType
  loopnests_ : List Loop
  deriving DecidableEq, Repr

structure OpNode extends NodeBase where
  op_name_ : String
  loopnests_ : List Loop
  p_workload : Workload
  deriving DecidableEq, Repr

structure ScopeNode extends NodeBase where
  type : ScopeType
  deriving DecidableEq, Repr

structure TransNode extends NodeBase where
  trans_name_ : String
  deriving DecidableEq, Repr

inductive ParsedNode where
  | Tile (node : TileNode)
  | Op (node : OpNode)
  | Scope (node : ScopeNode)
  | Trans (node : TransNode)
  deriving DecidableEq, Repr

def tolower (str : String) : String := String.ofList (str.toList.map Char.toLower)

def contains (str pattern : String) : Bool := decide (pattern.toList <:+: str.toList)

def type2name_ : NodeType → String
  | .Tile => "Tile"
  | .Op => "Op"
  | .Scope => "Scope"
  | .Trans => "Trans"

def name2dataflow_mode_ (name : String) : Exec DataflowMode :=
  if name = "forward" then .ok .Forward
  else if name = "write-back" then .ok .Write_back
  else .error (.exception "out_of_range")

def parseTarget (g : Globals) (name_ : String) (config : NodeConfig) :
    Exec (String × Option Nat) :=
  if config.target.exists_ then
    let target_level_name := config.target.lookupValue.getD ""
    match g.LevelName2IdxMap target_level_name with
    | some id => .ok (target_level_name, some id)
    | none => .error (.assertion ("Target level " ++ target_level_name ++ " is not defined."))
  else if name_ = "Scope" then .ok ("", none)
  else .error (.assertion "No target level is specified.")

def parseDataflowMode (name_ : String) (config : NodeConfig) : Exec (Option DataflowMode) :=
  if name_ = "Scope" then .ok none
  else match config.dataflow_mode.lookupValue with
    | none => .error (.assertion ("Current Node: " ++ name_ ++ " does not have dataflow mode."))
    | some dataflow_mode_s => do
      let mode ← name2dataflow_mode_ (tolower dataflow_mode_s)
      .ok (some mode)

def NodeBase.construct (g : Globals) (t : NodeType) (config : NodeConfig) : Exec NodeBase := do
  let name_ := type2name_ t
  let (target_level_name, target_level_id) ← parseTarget g name_ config
  let dataflow_mode_ ← parseDataflowMode name_ config
  let tag := config.tag.lookupValue.getD ""
  .ok
    { name_ := if tag ≠ "" then name_ ++ "::" ++ tag else name_
      target_level_name, target_level_id, dataflow_mode_ }

def ParsePermutations (buffer : String) : List String :=
  (buffer.toList.filter fun c => !isSpace c).map String.singleton

def parseLoopBounds (g : Globals) (table : SymbolTable) (config : NodeConfig) :
    Exec (SymbolTable × LoopBounds) :=
  match config.factors.lookupValue with
  | some buffer => ParseFactors g.re g.macros table buffer
  | none => .error (.assertion "No factors")

def iterNames (g : Globals) (config : NodeConfig) (loop_bounds : LoopBounds) : List String :=
  match config.permutation.lookupValue with
  | some buffer => ParsePermutations buffer
  | none => g.keyOrder.order loop_bounds.keys

/-- The loop over `iters[i]`. `loop_bounds[iters[i]]` makes an entry 0, 0 where there is none, and
    nothing else reads it. -/
def makeLoop (g : Globals) (loop_bounds : LoopBounds) (spacetime : Nat → Dimension)
    (iter : String × Nat) : Exec Loop :=
  match g.workloads_.common_shape_.FactorizedDimensionNameToID iter.1 with
  | none => .error (.exception "out_of_range")
  | some dimension =>
    let bounds := (loop_bounds.lookup iter.1).getD (0, 0)
    .ok
      { name_ := iter.1
        start := 0
        end_ := bounds.1
        residual_end := bounds.2
        stride := 1
        dimension := dimension
        spacetime_dimension := spacetime iter.2 }

/-- `loopnests_`, from the last name of `iters` to the first. `spacetime` is given `split` and the
    place of the loop. -/
def parseLoops (g : Globals) (config : NodeConfig) (loop_bounds : LoopBounds)
    (spacetime : Nat → Nat → Dimension) : Exec (List Loop) := do
  let iters := iterNames g config loop_bounds
  let buffer := config.permutation.lookupValue.getD (config.factors.lookupValue.getD "")
  tileexpAssert (iters.length = loop_bounds.keys.length)
    ("permutation " ++ buffer ++ " & factor iter mismatch")
  let split ← config.split.getD (.ok iters.length)
  iters.zipIdx.reverse.mapM (makeLoop g loop_bounds (spacetime split))

def parseTileType (type_s : String) : Exec TileType :=
  if contains type_s "temp" then .ok .Temporal
  else if contains type_s "spatial" then .ok .Spatial
  else .error (.assertion ("Unknown Tile type" ++ type_s))

def tileTypeName (config : NodeConfig) : String :=
  tolower (config.type.lookupValue.getD "temporal")

def TileNode.construct (g : Globals) (table : SymbolTable) (config : NodeConfig) :
    Exec (SymbolTable × TileNode) := do
  let node ← NodeBase.construct g .Tile config
  let type_s := tileTypeName config
  let type_ ← parseTileType type_s
  let (table, loop_bounds) ← parseLoopBounds g table config
  let loopnests_ ← parseLoops g config loop_bounds fun split i =>
    if type_s = "spatial" then (if i < split then .SpaceX else .SpaceY) else .Time
  let name_ := node.name_ ++ (if type_ = .Temporal then "::Temporal" else "::Spatial")
  .ok (table, { node with name_, type_, loopnests_ })

def OpNode.construct (g : Globals) (table : SymbolTable) (config : NodeConfig) :
    Exec (SymbolTable × OpNode) := do
  let node ← NodeBase.construct g .Op config
  match config.name.lookupValue with
  | none => .error (.assertion "config.lookupValue(name, op_name_)")
  | some op_name_ => do
    let symbol_num := table.get_num_variables
    let (table, loop_bounds) ← parseLoopBounds g table config
    tileexpAssert (symbol_num = table.get_num_variables)
      "Symbol num mismatch, Op Node must declare all factors"
    let loopnests_ ← parseLoops g config loop_bounds fun _ _ => .Time
    let p_workload ← g.workloads_.get_workload op_name_
    .ok (table, { node with name_ := node.name_ ++ "::" ++ op_name_, op_name_, loopnests_, p_workload })

def ScopeNode.construct (g : Globals) (config : NodeConfig) : Exec ScopeNode := do
  let node ← NodeBase.construct g .Scope config
  let type_s := tolower (config.type.lookupValue.getD "sequential")
  if contains type_s "seq" then
    .ok { node with name_ := node.name_ ++ "::Sequential", type := .Sequential }
  else if contains type_s "para" then
    .ok { node with name_ := node.name_ ++ "::Parallel", type := .Parallel }
  else if contains type_s "pipe" then
    .ok { node with name_ := node.name_ ++ "::Pipeline", type := .Pipeline }
  else if contains type_s "shar" then
    .ok { node with name_ := node.name_ ++ "::Sharing", type := .Sharing }
  else .error (.assertion "ScopeNode type error. Should has type sequential/parallel")

def TransNode.construct (g : Globals) (config : NodeConfig) : Exec TransNode := do
  let node ← NodeBase.construct g .Trans config
  .ok { node with trans_name_ := config.name.lookupValue.getD "" }

def construct (g : Globals) (table : SymbolTable) (config : NodeConfig) :
    Exec (SymbolTable × ParsedNode) :=
  match config.node_type.lookupValue with
  | none => .error (.assertion "No node-type is specified.")
  | some value =>
    let node_type := tolower value
    if node_type = "tile" then do
      let (table, node) ← TileNode.construct g table config
      .ok (table, .Tile node)
    else if node_type = "op" then do
      let (table, node) ← OpNode.construct g table config
      .ok (table, .Op node)
    else if node_type = "scope" then do
      let node ← ScopeNode.construct g config
      .ok (table, .Scope node)
    else if node_type = "trans" then do
      let node ← TransNode.construct g config
      .ok (table, .Trans node)
    else .error (.assertion "Current node type is not a valid type.")

mutual

def RecursiveParse (g : Globals) (table : SymbolTable) :
    Rose NodeConfig → Exec (SymbolTable × Rose ParsedNode)
  | .mk config subtree => do
    let (table, node) ← construct g table config
    let (table, children) ← parseSubtree g table subtree
    .ok (table, .mk node children)

def parseSubtree (g : Globals) (table : SymbolTable) :
    List (Rose NodeConfig) → Exec (SymbolTable × List (Rose ParsedNode))
  | [] => .ok (table, [])
  | config :: rest => do
    let (table, child) ← RecursiveParse g table config
    let (table, children) ← parseSubtree g table rest
    .ok (table, child :: children)

end

def oneLevel : Globals where
  re := Search.greedy factorPattern
  macros := fun _ => none
  LevelName2IdxMap := fun name => if name = "L1" then some 0 else none
  workloads_ :=
    { workloads_ := fun name => if name = "copy" then some ⟨["A"], "B"⟩ else none
      common_shape_ :=
        { FactorizedDimensionNameToID := fun name =>
            if name = "M" then some 0 else if name = "N" then some 1 else none
          FactorizedDimensionIDToName := fun id => ["M", "N"][id]?
          DataSpaceNameToID := fun name =>
            if name = "A" then some 0 else if name = "B" then some 1 else none
          Projections := [[[(0, 0)], [(0, 1)]], [[(0, 0)], [(0, 1)]]] }
      factorized_bounds_ := fun id => [(8 : Int), 8][id]? }
  keyOrder := ⟨fun keys => keys, fun _ => List.Perm.refl _⟩

def oneTile (type factors permutation : Setting) : NodeConfig where
  node_type := .scalar "Tile"
  target := .scalar "L1"
  dataflow_mode := .scalar "forward"
  tag := .absent
  type := type
  name := .absent
  factors := factors
  permutation := permutation
  split := none

def oneOp (tag name factors permutation : Setting) : NodeConfig where
  node_type := .scalar "Op"
  target := .scalar "L1"
  dataflow_mode := .scalar "forward"
  tag := tag
  type := .absent
  name := name
  factors := factors
  permutation := permutation
  split := none

end TileExp.Mapping
