import Latias.Analysis.PerfAnalysis

/-! `PerfAnalysis` as a nest of loops: the iterations in progress are an argument, and what a visit
    leaves behind is its result. -/

namespace TileExp.Analysis

/-- The stacks while the iterations `loops` are in progress and `node` is current. -/
def Walk.ofLoops (ctx : PerfContext) (start : NodePtr → Nat → Int) (node : NodePtr)
    (loops : List LoopState) : Walk where
  start := start
  current_dim_range_ ptr dim_name :=
    (loops.filter fun loop => loop.node = ptr ∧ loop.name_ = dim_name).map fun loop =>
      (loop.ori_start, loop.loop_end)
  current_offset_ ptr dim_name :=
    (loops.filter fun loop => loop.node = ptr ∧ loop.name_ = dim_name).map fun _ =>
      ctx.dim_offset_ ptr dim_name
  ori_start_ ptr := (loops.filter fun loop => loop.node = ptr).map LoopState.ori_start
  current_start_ ptr := (loops.filter fun loop => loop.node = ptr).map LoopState.index
  current_node_ := node
  vec_last_dim_ dim_name := (loops.filter fun loop => loop.name_ = dim_name).map LoopState.is_last
  current_loop_state_ := loops

namespace LoopNest

open Checked

variable (ctx : PerfContext)

def walkAt (node : NodePtr) (loops : List LoopState) : Walk :=
  Walk.ofLoops ctx (fun _ _ => 0) node loops

def isLast (loops : List LoopState) (dim_name : String) : Bool :=
  (loops.filter fun loop => loop.name_ = dim_name).all LoopState.is_last

def loopEnd (node : NodePtr) (loop : Descriptor) (loops : List LoopState) : Int :=
  if (get_parent node).isNone || isLast loops loop.name_ then loop.residual_end else loop.end_

def loopState (node : NodePtr) (loop : Descriptor) (loop_end : Int) (i : Nat) : LoopState where
  node := node
  name_ := loop.name_
  ori_start := loop.start
  loop_end := loop_end
  index := loop.start + i
  is_last := ¬ loop.start + i + loop.stride < loop_end

def isFirst (node : NodePtr) (loops : List LoopState) : Bool :=
  (loops.filter fun loop => loop.node = node).all fun loop => loop.ori_start = loop.index

def enterFirst (node : NodePtr) (loops : List LoopState) (t : Tally) : Exec Tally :=
  if isFirst node loops then PerfAnalysis.enterTile ctx (walkAt ctx node loops) t else .ok t

/-- The loops of a Tile, the outermost first, around `body`. -/
def tileLoops (node : NodePtr) (body : List LoopState → Tally → Exec Tally) :
    List Descriptor → List LoopState → Tally → Exec Tally
  | [], loops, t => do
    let t ← enterFirst ctx node loops t
    body loops t
  | loop :: rest, loops, t => do
    tileexpAssert (loop.stride = 1) "currently only support stride = 1"
    let loop_end := loopEnd node loop loops
    let t ← (List.range (loop_end - loop.start).toNat).foldlM (fun t i => do
      let t ← tileLoops node body rest (loopState node loop loop_end i :: loops) t
      .ok (t.advanceSkew node loop.name_ (ctx.dim_offset_ node loop.name_).1))
      (t.clearSkew node loop.name_)
    .ok (t.restoreSkew node loop.name_)

def finishScope (node : NodePtr) (t : Tally) : Exec Tally :=
  if t.latency_sub_vec_ node = [] then .error .outOfRange
  else .ok (t.setRows node (t.latency_vec_ node ++ [t.latency_sub_vec_ node]))

def leave (node : NodePtr) (visited : Exec Tally) : Exec Tally := do
  let t ← visited
  .ok (t.record (.leave node (up node)))

mutual

def visit (ptr : NodePtr) : Node → List LoopState → Tally → Exec Tally
  | .mk info cs => fun loops t =>
    let t := t.record (.enter ptr ptr loops t.dim_skew)
    leave ptr (match info.kind with
      | .Op _ => .ok (PerfAnalysis.opTally ctx (walkAt ctx ptr loops) t)
      | .Trans => PerfAnalysis.transTally ctx (walkAt ctx ptr loops) t
      | .Scope _ => do
        let t ← scopeChildren ptr 0 cs loops (t.setRow ptr [])
        finishScope ptr t
      | .Tile _ [] => .error .outOfRange
      | .Tile _ (loop :: rest) => do
        let t ← tileLoops ctx ptr (fun loops t => do
          let t ← tileChildren ptr 0 cs loops (t.setRow ptr [])
          PerfAnalysis.pushRow ptr t) (loop :: rest) loops t
        PerfAnalysis.finishTile ctx ptr t)

def scopeChildren (ptr : NodePtr) : Nat → List Node → List LoopState → Tally → Exec Tally
  | _, [] => fun _ t => .ok t
  | i, c :: cs => fun loops t => do
    let t ← visit (i :: ptr) c loops t
    let t :=
      if ctx.ev.get_type (i :: ptr) = .Trans then t
      else t.setRow ptr (t.latency_sub_vec_ ptr ++ [t.latencyOf (i :: ptr)])
    scopeChildren ptr (i + 1) cs loops t

def tileChildren (ptr : NodePtr) : Nat → List Node → List LoopState → Tally → Exec Tally
  | _, [] => fun _ t => .ok t
  | i, c :: cs => fun loops t => do
    let t ← visit (i :: ptr) c loops t
    if ctx.ev.get_type (i :: ptr) = .Scope then
      .ok (t.setRow ptr (t.latency_sub_vec_ (i :: ptr)))
    else
      tileChildren ptr (i + 1) cs loops
        (t.setRow ptr (t.latency_sub_vec_ ptr ++ [t.latencyOf (i :: ptr)]))

end

end LoopNest

end TileExp.Analysis
