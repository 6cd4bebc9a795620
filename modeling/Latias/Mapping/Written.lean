import Latias.Mapping.OpFactors
import Latias.Mapping.RoundTrip

/-! Mappings as they are meant, and the configurations that write them. -/

namespace TileExp.Mapping

open Regex TileExp.Symbol

structure SymbolName where
  token : Word isToken
  symbolic : isVariable (String.ofList token.text) = true
  named : ¬ SymbolTable.Anonymous (String.ofList token.text)

def SymbolName.name_ (symbol : SymbolName) : String := String.ofList symbol.token.text

/-- A bound of a loop: a number, or a variable that is to be tiled later. -/
inductive Bound where
  | number (n : PositiveInt)
  | symbol (name : SymbolName)

namespace Bound

def token : Bound → Word isToken
  | number n => decimal n.1
  | symbol name => name.token

def symbols : Bound → List String
  | number _ => []
  | symbol name => [name.name_]

def value (table : SymbolTable) : Bound → Int
  | number n => n.1
  | symbol name => -((table.name2idx_.lookup name.name_).getD 0)

end Bound

structure LoopSpec where
  letter : { c : Char // c.isAlpha = true }
  end_ : Bound
  residual_end : Option Bound

namespace LoopSpec

variable (spec : LoopSpec)

def name_ : String := String.singleton spec.letter.1

def factor : Factor where
  dimension_name :=
    ⟨[spec.letter.1], List.cons_ne_nil _ _, fun _ member => List.mem_singleton.mp member ▸ spec.letter.2⟩
  end_token := spec.end_.token
  residual_token := spec.residual_end.map Bound.token

def symbols : List String := spec.end_.symbols ++ (spec.residual_end.map Bound.symbols).getD []

def bounds (table : SymbolTable) : Int × Int :=
  (spec.end_.value table, (spec.residual_end.getD spec.end_).value table)

def loop (g : Globals) (spacetime_dimension : Dimension) (table : SymbolTable) : Loop where
  name_ := spec.name_
  start := 0
  end_ := (spec.bounds table).1
  residual_end := (spec.bounds table).2
  stride := 1
  dimension := (g.workloads_.common_shape_.FactorizedDimensionNameToID spec.name_).getD 0
  spacetime_dimension := spacetime_dimension

end LoopSpec

/-- The loops of a Tile from the outer to the inner ones. Those of a spatial Tile go over the rows
    and then over the columns of the array. -/
inductive TileSpec where
  | Temporal (loops : List LoopSpec)
  | Spatial (spaceY spaceX : List LoopSpec)

namespace TileSpec

def type_ : TileSpec → TileType
  | Temporal _ => .Temporal
  | Spatial _ _ => .Spatial

def word : TileSpec → String
  | Temporal _ => "temporal"
  | Spatial _ _ => "spatial"

def loops : TileSpec → List LoopSpec
  | Temporal loops => loops
  | Spatial spaceY spaceX => spaceY ++ spaceX

def loopnests_ (g : Globals) (table : SymbolTable) : TileSpec → List Loop
  | Temporal loops => loops.map fun spec => spec.loop g .Time table
  | Spatial spaceY spaceX =>
    spaceY.map (fun spec => spec.loop g .SpaceY table) ++
      spaceX.map fun spec => spec.loop g .SpaceX table

end TileSpec

structure Head where
  target_level_name : String
  dataflow_mode_ : DataflowMode
  tag : String

inductive NodeSpec where
  | Tile (head : Head) (tile : TileSpec)
  | Op (head : Head) (op_name_ : String) (loops : List LoopSpec)
  | Scope (target : Option String) (tag : String) (type : ScopeType)
  | Trans (head : Head) (trans_name_ : String)

def taggedName (name_ tag : String) : String := if tag ≠ "" then name_ ++ "::" ++ tag else name_

def Head.base (g : Globals) (name_ : String) (head : Head) : NodeBase where
  name_ := taggedName name_ head.tag
  target_level_name := head.target_level_name
  target_level_id := g.LevelName2IdxMap head.target_level_name
  dataflow_mode_ := some head.dataflow_mode_

def TileSpec.node (g : Globals) (head : Head) (table : SymbolTable) (tile : TileSpec) : TileNode :=
  { head.base g "Tile" with
    name_ := taggedName "Tile" head.tag ++
      (if tile.type_ = .Temporal then "::Temporal" else "::Spatial")
    type_ := tile.type_
    loopnests_ := tile.loopnests_ g table }

def Head.opNode (g : Globals) (head : Head) (op_name_ : String) (loops : List LoopSpec)
    (table : SymbolTable) : OpNode :=
  { head.base g "Op" with
    name_ := taggedName "Op" head.tag ++ "::" ++ op_name_
    op_name_ := op_name_
    loopnests_ := loops.map fun spec => spec.loop g .Time table
    p_workload := (g.workloads_.workloads_ op_name_).getD ⟨[], ""⟩ }

def scopeName : ScopeType → String
  | .Sequential => "::Sequential"
  | .Parallel => "::Parallel"
  | .Pipeline => "::Pipeline"
  | .Sharing => "::Sharing"
  | .Ring => "::Ring"
  | .Mesh => "::Mesh"

namespace NodeSpec

def loops : NodeSpec → List LoopSpec
  | Tile _ tile => tile.loops
  | Op _ _ loops => loops
  | Scope _ _ _ => []
  | Trans _ _ => []

def symbols (spec : NodeSpec) : List String := spec.loops.flatMap LoopSpec.symbols

def bounds (spec : NodeSpec) : List Bound :=
  spec.loops.flatMap fun loop => loop.end_ :: loop.residual_end.toList

def isOp : NodeSpec → Bool
  | Tile _ _ => false
  | Op _ _ _ => true
  | Scope _ _ _ => false
  | Trans _ _ => false

def node (g : Globals) (table : SymbolTable) : NodeSpec → ParsedNode
  | Tile head tile => .Tile (tile.node g head table)
  | Op head op_name_ loops => .Op (head.opNode g op_name_ loops table)
  | Scope target tag type =>
    .Scope
      { name_ := taggedName "Scope" tag ++ scopeName type
        target_level_name := target.getD ""
        target_level_id := target.bind g.LevelName2IdxMap
        dataflow_mode_ := none
        type := type }
  | Trans head trans_name_ => .Trans { head.base g "Trans" with trans_name_ := trans_name_ }

end NodeSpec

def Setting.Says (setting : Setting) (word : String) : Prop :=
  ∃ value, setting = .scalar value ∧ tolower value = word

def Setting.Gives (setting : Setting) (value default : String) : Prop :=
  setting = .scalar value ∨ setting = .absent ∧ value = default

/-- The factors stand in any order, and so do blanks, as long as no comma is taken for that of a
    residual. The permutation goes from the inner to the outer loops. -/
structure WritesLoops (config : NodeConfig) (loops : List LoopSpec) : Prop where
  factors : ∃ (order : List (LoopSpec × Spacing)) (tail : Blanks) (comment : Option (List Char)),
    (order.map Prod.fst).Perm loops ∧ (∀ e ∈ order, e.2.Clear e.1.factor) ∧
      config.factors = .scalar (String.ofList
        (written (order.map fun e => (e.1.factor, e.2)) ++ tail.1 ++ commentText comment))
  permutation : ∃ buffer, config.permutation = .scalar buffer ∧
    buffer.toList.filter (fun c => !isSpace c) = (loops.map fun loop => loop.letter.1).reverse

def modeWord : DataflowMode → String
  | .Forward => "forward"
  | .Write_back => "write-back"

structure Head.Writes (head : Head) (config : NodeConfig) : Prop where
  target : config.target = .scalar head.target_level_name
  dataflow_mode : config.dataflow_mode.Says (modeWord head.dataflow_mode_)
  tag : config.tag.Gives head.tag ""

/-- `split` counts the loops over the columns. -/
def TileSpec.Writes (config : NodeConfig) : TileSpec → Prop
  | Temporal loops =>
    (config.type = .absent ∨ config.type.Says (Temporal loops).word) ∧ config.split = none ∧
      WritesLoops config loops
  | Spatial spaceY spaceX =>
    config.type.Says (Spatial spaceY spaceX).word ∧ config.split = some (.ok spaceX.length) ∧
      WritesLoops config (spaceY ++ spaceX)

/-- Ring and Mesh cannot be written. -/
def scopeWord : ScopeType → Option String
  | .Sequential => some "sequential"
  | .Parallel => some "parallel"
  | .Pipeline => some "pipeline"
  | .Sharing => some "sharing"
  | .Ring => none
  | .Mesh => none

def NodeSpec.Writes (config : NodeConfig) : NodeSpec → Prop
  | Tile head tile => config.node_type.Says "tile" ∧ head.Writes config ∧ tile.Writes config
  | Op head op_name_ loops =>
    config.node_type.Says "op" ∧ head.Writes config ∧ config.name = .scalar op_name_ ∧
      config.split = none ∧ WritesLoops config loops
  | Scope target tag type =>
    config.node_type.Says "scope" ∧
      config.target = (match target with
        | some name => .scalar name
        | none => .absent) ∧
      config.tag.Gives tag "" ∧
      (config.type = .absent ∧ type = .Sequential ∨ ∃ word ∈ scopeWord type, config.type.Says word)
  | Trans head trans_name_ =>
    config.node_type.Says "trans" ∧ head.Writes config ∧ config.name.Gives trans_name_ ""

/-! One way to write a node. -/

def factorText (loops : List LoopSpec) : String :=
  String.ofList (written (loops.map fun loop => (loop.factor, plain)))

def permutationText (loops : List LoopSpec) : String :=
  String.ofList (loops.map fun loop => loop.letter.1).reverse

def Head.write (head : Head) (node_type : String) (type name : Setting) (loops : List LoopSpec)
    (split : Option (Exec Nat)) : NodeConfig where
  node_type := .scalar node_type
  target := .scalar head.target_level_name
  dataflow_mode := .scalar (modeWord head.dataflow_mode_)
  tag := .scalar head.tag
  type := type
  name := name
  factors := .scalar (factorText loops)
  permutation := .scalar (permutationText loops)
  split := split

def NodeSpec.write : NodeSpec → NodeConfig
  | Tile head tile =>
    head.write "Tile" (.scalar tile.word) .absent tile.loops
      (match tile with
        | .Temporal _ => none
        | .Spatial _ spaceX => some (.ok spaceX.length))
  | Op head op_name_ loops => head.write "Op" .absent (.scalar op_name_) loops none
  | Scope target tag type =>
    { node_type := .scalar "Scope"
      target := (match target with
        | some name => .scalar name
        | none => .absent)
      dataflow_mode := .absent
      tag := .scalar tag
      type := .scalar ((scopeWord type).getD "")
      name := .absent
      factors := .absent
      permutation := .absent
      split := none }
  | Trans head trans_name_ => head.write "Trans" .absent (.scalar trans_name_) [] none

def NodeSpec.Writable : NodeSpec → Prop
  | Scope _ _ type => (scopeWord type).isSome
  | _ => True

theorem not_isSpace_of_isAlpha {c : Char} (alpha : c.isAlpha = true) : isSpace c = false := by
  by_contra space
  have apart := (space_apart (eq_true_of_ne_false space)).1
  rw [alpha] at apart
  cases apart

theorem writesLoops_write {config : NodeConfig} {loops : List LoopSpec}
    (factors : config.factors = .scalar (factorText loops))
    (permutation : config.permutation = .scalar (permutationText loops)) : WritesLoops config loops := by
  constructor
  · refine ⟨loops.map fun loop => (loop, plain), spaces 0, none, ?_, ?_, ?_⟩
    · rw [List.map_map]
      exact List.Perm.of_eq (List.map_id' loops)
    · intro e member
      obtain ⟨loop, _, rfl⟩ := List.mem_map.mp member
      exact plain_clear loop.factor
    · rw [factors, factorText, List.map_map]
      show _ = Setting.scalar (String.ofList (written _ ++ [] ++ []))
      rw [List.append_nil, List.append_nil]
      rfl
  · refine ⟨_, permutation, ?_⟩
    rw [permutationText, String.toList_ofList, List.filter_eq_self]
    intro c member
    obtain ⟨loop, _, rfl⟩ := List.mem_map.mp (List.mem_reverse.mp member)
    rw [not_isSpace_of_isAlpha loop.letter.2]
    rfl

theorem Head.writes_write (head : Head) (node_type : String) (type name : Setting)
    (loops : List LoopSpec) (split : Option (Exec Nat)) :
    head.Writes (head.write node_type type name loops split) := by
  refine ⟨rfl, ⟨_, rfl, ?_⟩, Or.inl rfl⟩
  cases head.dataflow_mode_ with
  | Forward => decide
  | Write_back => decide

theorem NodeSpec.writes_write (spec : NodeSpec) (writable : spec.Writable) :
    spec.Writes spec.write := by
  cases spec with
  | Tile head tile =>
    refine ⟨⟨_, rfl, by decide⟩, Head.writes_write _ _ _ _ _ _, ?_⟩
    cases tile with
    | Temporal loops =>
      exact ⟨Or.inr ⟨_, rfl, by rw [TileSpec.word]; decide⟩, rfl, writesLoops_write rfl rfl⟩
    | Spatial spaceY spaceX =>
      exact ⟨⟨_, rfl, by rw [TileSpec.word]; decide⟩, rfl, writesLoops_write rfl rfl⟩
  | Op head op_name_ loops =>
    exact ⟨⟨_, rfl, by decide⟩, Head.writes_write _ _ _ _ _ _, rfl, rfl, writesLoops_write rfl rfl⟩
  | Scope target tag type =>
    obtain ⟨word, own⟩ := Option.isSome_iff_exists.mp writable
    refine ⟨⟨_, rfl, by decide⟩, rfl, Or.inl rfl, Or.inr ⟨word, own, word, ?_, ?_⟩⟩
    · show Setting.scalar ((scopeWord type).getD "") = _
      rw [own]
      rfl
    · cases type with
      | Sequential => cases own; decide
      | Parallel => cases own; decide
      | Pipeline => cases own; decide
      | Sharing => cases own; decide
      | Ring => cases own
      | Mesh => cases own
  | Trans head trans_name_ =>
    exact ⟨⟨_, rfl, by decide⟩, Head.writes_write _ _ _ _ _ _, Or.inl rfl⟩

/-- The dimensions of the loops are different ones of the problem, and no macro hides a bound. -/
structure LoopsValid (g : Globals) (loops : List LoopSpec) : Prop where
  distinct : (loops.map LoopSpec.name_).Nodup
  declared : ∀ loop ∈ loops,
    (g.workloads_.common_shape_.FactorizedDimensionNameToID loop.name_).isSome
  unnamed : ∀ loop ∈ loops, g.macros (String.ofList loop.end_.token.text) = none

def NodeSpec.Valid (g : Globals) : NodeSpec → Prop
  | Tile head tile => (g.LevelName2IdxMap head.target_level_name).isSome ∧ LoopsValid g tile.loops
  | Op head op_name_ loops =>
    (g.LevelName2IdxMap head.target_level_name).isSome ∧ LoopsValid g loops ∧
      (g.workloads_.workloads_ op_name_).isSome
  | Scope target _ _ => ∀ name ∈ target, (g.LevelName2IdxMap name).isSome
  | Trans head _ => (g.LevelName2IdxMap head.target_level_name).isSome

/-- An Op has only variables of the nodes before it. -/
def OpsDeclared (declared : List String) : List NodeSpec → Prop
  | [] => True
  | spec :: rest =>
    (spec.isOp → spec.symbols ⊆ declared) ∧ OpsDeclared (declared ++ spec.symbols) rest

/-- A node with a configuration that writes it. -/
structure WrittenNode where
  spec : NodeSpec
  config : NodeConfig
  writes : spec.Writes config

def WrittenNode.ofSpec (spec : NodeSpec) (writable : spec.Writable) : WrittenNode :=
  ⟨spec, spec.write, spec.writes_write writable⟩

end TileExp.Mapping
