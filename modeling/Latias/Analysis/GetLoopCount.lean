import Latias.Analysis.Traversal
import Mathlib.Data.List.Sort

namespace TileExp.Analysis

namespace GetLoopCount

def pushDim (ends : Table (List Int) × Table (List Int)) (dim : Descriptor) :
    Exec (Table (List Int) × Table (List Int)) :=
  match ends.1.lookup dim.name_ with
  | none =>
    .ok (ends.1.insert dim.name_ [dim.end_], ends.2.insert dim.name_ [dim.residual_end])
  | some dim_ends => do
    tileexpAssert (dim.end_ ≥ dim.residual_end) "Dim end smaller than residual end"
    .ok (ends.1.insert dim.name_ (dim_ends ++ [dim.end_]),
      ends.2.insert dim.name_ ((ends.2.lookup dim.name_).getD [] ++ [dim.residual_end]))

/-- The two nested loops over the levels of one dimension. The source counts in `int32_t`, where a
    product beyond 2^31 - 1 overflows; counts are unbounded here. -/
def dimResult (dim_ends dim_residual_ends : List Int) : Int :=
  (List.range dim_ends.length).foldl (fun dim_result i =>
    let tem_result := (dim_ends.drop (i + 1)).foldl (· * ·) 1
    dim_result + tem_result * (dim_residual_ends.getD i 0 - 1)) 1

def get_loop_count (input_loopnests : List (List Descriptor)) : Exec (Table Int) := do
  let (dim_ends, dim_residual_ends) ← input_loopnests.flatten.foldlM pushDim (∅, ∅)
  .ok (dim_ends.entries.foldl (fun (dim_results : Table Int) dim =>
    dim_results.insert dim.1 (dimResult dim.2 ((dim_residual_ends.lookup dim.1).getD []))) ∅)

def parentLoopnests (inherit_loopnests_ : NodePtr → List (List Descriptor))
    (current_node_ : NodePtr) : Exec (List (List Descriptor)) :=
  match get_parent current_node_ with
  | some parent => .ok (inherit_loopnests_ parent)
  | none => .error .nullPointer

abbrev Inherit := NodePtr → List (List Descriptor)

def add_inherit_loopnest (loopnests : List (List Descriptor)) (current_node_ : NodePtr)
    (inherit_loopnests_ : Inherit) : Inherit :=
  Function.update inherit_loopnests_ current_node_ (inherit_loopnests_ current_node_ ++ loopnests)

def visitTile (node : Node) (current_node_ : NodePtr) (inherit_loopnests_ : Inherit) :
    Exec Inherit := do
  let inherit_loopnests_ := match get_parent current_node_ with
    | some parent =>
      add_inherit_loopnest (inherit_loopnests_ parent) current_node_ inherit_loopnests_
    | none => inherit_loopnests_
  let inherit_loopnests_ := add_inherit_loopnest [node.loopnests_] current_node_ inherit_loopnests_
  tileexpAssert (node.children.length > 0) "Tile node should have at least one child"
  .ok inherit_loopnests_

def visitScope (node : Node) (current_node_ : NodePtr) (inherit_loopnests_ : Inherit) :
    Exec Inherit := do
  let parent_loops ← parentLoopnests inherit_loopnests_ current_node_
  let inherit_loopnests_ := add_inherit_loopnest parent_loops current_node_ inherit_loopnests_
  tileexpAssert (node.children.length > 0) "Scope node should have at least one child"
  .ok inherit_loopnests_

/-- The comparison of every counted dimension with its bound, in the order of a `std::map`. -/
def checkBounds (workloads : Workloads) (name_ : String) (mapping_loop_results : Table Int) :
    Exec Unit :=
  (mapping_loop_results.entries.insertionSort fun a b => a.1 ≤ b.1).forM fun tmp =>
    tileexpAssert (workloads.factorized_bound tmp.1 = tmp.2)
      ("Dim " ++ tmp.1 ++ " of " ++ name_ ++ " is not equal to the factorized bounds " ++
        toString (workloads.factorized_bound tmp.1))

def visitOp (ev : Evaluator) (node : Node) (current_node_ : NodePtr)
    (inherit_loopnests_ : Inherit) : Exec Inherit := do
  let parent_loops ← parentLoopnests inherit_loopnests_ current_node_
  let inherit_loopnests_ := add_inherit_loopnest parent_loops current_node_ inherit_loopnests_
  let inherit_loopnests_ := add_inherit_loopnest [node.loopnests_] current_node_ inherit_loopnests_
  tileexpAssert (node.children.length = 0) "Op node should not have child"
  let mapping_loop_results ← get_loop_count (inherit_loopnests_ current_node_)
  checkBounds ev.workloads_ (ev.ori_node_ current_node_).get_name mapping_loop_results
  .ok inherit_loopnests_

def visitTrans (node : Node) (current_node_ : NodePtr) (inherit_loopnests_ : Inherit) :
    Exec Inherit := do
  tileexpAssert (node.children.length = 0) "Trans node should not have child"
  let parent_loops ← parentLoopnests inherit_loopnests_ current_node_
  .ok (add_inherit_loopnest parent_loops current_node_ inherit_loopnests_)

def visit (ev : Evaluator) (node : Node) (current_node_ : NodePtr)
    (inherit_loopnests_ : Inherit) : Exec Inherit :=
  match node.get_type with
  | .Tile => visitTile node current_node_ inherit_loopnests_
  | .Scope => visitScope node current_node_ inherit_loopnests_
  | .Op => visitOp ev node current_node_ inherit_loopnests_
  | .Trans => visitTrans node current_node_ inherit_loopnests_

def run (ev : Evaluator) (tree : EvaTree) : Exec EvaTree := do
  let (_, inherit_loopnests_) ← traverse ev (visit ev) (fun _ _ s => .ok s) ev.root_
    ([], tree.inherit_loopnests_)
  .ok { tree with inherit_loopnests_ }

end GetLoopCount

end TileExp.Analysis
