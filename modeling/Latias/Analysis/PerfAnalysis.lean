import Latias.Analysis.PerfTensors
import Latias.Analysis.PerfLatency
import Latias.Library.Checked

namespace TileExp.Analysis

namespace PerfAnalysis

open Checked

variable (ctx : PerfContext)

def dimEnd (loops : List Descriptor) (dim_name : String) : Int :=
  loops.foldl (fun dim_end loop => if loop.name_ = dim_name then loop.end_ else dim_end) 0

def opMovement (loops : List Descriptor) (table : Table TensorMap) : Int :=
  (table.entries.map fun tensor => (tensor.2.tensor_dims_.map (dimEnd loops)).prod).sum

def opTally (w : Walk) (t : Tally) : Tally :=
  let node := w.current_node_
  let loops := ctx.ev.loopnests_ node
  let input_dm := opMovement loops (t.input_tensors_ node)
  let output_dm := opMovement loops (t.output_tensors_ node)
  let t := { t with data_movements_ := t.data_movements_ + (output_dm + input_dm) }
  let t := t.record (.opCharge node w.current_loop_state_ input_dm output_dm)
  let t := t.setProcessLatency node (ctx.ev.arch_topo_.compute_cycles (ctx.ev.target_level node))
  let t := t.setInputLatency node 0
  t.setOutputLatency node 0

def transTally (w : Walk) (t : Tally) : Exec Tally := do
  let node := w.current_node_
  let t := t.setInputLatency node 0
  let t := t.setProcessLatency node 0
  let t := t.setOutputLatency node 0
  match ctx.leaf_vec_.idxOf node with
  | 0 => .error .outOfRange
  | current_idx + 1 =>
    match ctx.leaf_vec_[current_idx]? with
    | none => .error .outOfRange
    | some former =>
      if ctx.ev.get_type former = .Trans then
        let bandwidth ← ctx.ev.intercon_.bandwidth_
          (ctx.ev.target_level former ++ "2" ++ ctx.ev.target_level node)
        let output_latency ← divide 0 bandwidth
        .ok (t.setOutputLatency node output_latency)
      else .ok t

/-- The first iteration of a visit, in the innermost loop: the movements of the tile, its
    transfer latencies and an empty `latency_vec_`. -/
def enterTile (w : Walk) (t : Tally) : Exec Tally := do
  let node := w.current_node_
  let (t, input_tile, input_trans) ← addCurrentTensor ctx w true t
  let (t, output_tile, output_trans) ← addCurrentTensor ctx w false t
  let t := { t with
    data_movements_ := t.data_movements_ + (input_tile + input_trans + output_tile + output_trans) }
  let t ←
    if get_parent node = none then .ok ((t.setInputLatency node 0).setOutputLatency node 0)
    else do
      let input_latency ← getInputLatency ctx.ev node input_tile input_trans
      let t := t.setInputLatency node input_latency
      let output_latency ← getOutputLatency ctx.ev node output_tile
      .ok (t.setOutputLatency node output_latency)
  .ok (t.setRows node [])

def pushRow (node : NodePtr) (t : Tally) : Exec Tally :=
  let row := t.latency_sub_vec_ node
  if row = [] then .error .outOfRange
  else .ok ((t.setRows node (t.latency_vec_ node ++ [row])).record (.row node row))

/-- The end of the outermost loop: the latency of the rows, kept unless it is zero. -/
def finishTile (node : NodePtr) (t : Tally) : Exec Tally := do
  let rows := t.latency_vec_ node
  let process_latency ← computeLatency ctx.ev node rows
  let t := t.record (.compute node rows)
  .ok (if process_latency ≠ 0 then t.setProcessLatency node process_latency else t)

/-- One iteration of the loop of `visitTileLoop`. `loop_node` and `idx` are what `loop_start`
    points at, and `inner` is the next dimension, or the children. -/
def tileIteration (loop_node : NodePtr) (idx dim_bound : Nat) (loop : Descriptor)
    (ori_start loop_end : Int) (inner : PerfState → Exec PerfState) (s : PerfState) :
    Exec PerfState := do
  let node := s.walk.current_node_
  let loop_start := s.walk.start loop_node idx
  let is_last := ¬ loop_start + loop.stride < loop_end
  let w := s.walk.push ⟨node, loop.name_, ori_start, loop_end, loop_start, is_last⟩
    (ctx.dim_offset_ node loop.name_)
  let t ←
    if idx + 1 = dim_bound ∧ Walk.isFirstLoop (w.ori_start_ node) (w.current_start_ node) then
      enterTile ctx w s.tally
    else .ok s.tally
  let s ← inner ⟨w, t⟩
  let node := s.walk.current_node_
  let offset := (ctx.dim_offset_ node loop.name_).1
  let w := s.walk.pop loop.name_
  .ok ⟨w.setStart loop_node idx (w.start loop_node idx + loop.stride),
    s.tally.advanceSkew node loop.name_ offset⟩

/-- `visitTileLoop`. `children` visits the children once, `rest` is the number of dimensions from
    `current_dim_idx` on. The body of the loop leaves `*loop_start` to its increment, so the
    number of rounds is known at the start. -/
def visitTileLoop (is_root : Bool) (dim_bound : Nat) (children : PerfState → Exec PerfState) :
    Nat → PerfState → Exec PerfState
  | 0, _ => .error .outOfRange
  | rest + 1, s => do
    let current_dim_idx := dim_bound - (rest + 1)
    let node := s.walk.current_node_
    match (ctx.ev.loopnests_ node)[current_dim_idx]? with
    | none => .error .outOfRange
    | some loop =>
      let ori_start := s.walk.start node current_dim_idx
      tileexpAssert (loop.stride = 1) "currently only support stride = 1"
      let is_last_dim := is_root || s.walk.isLastLoop loop.name_
      let loop_end := if is_last_dim then loop.residual_end else loop.end_
      let inner := if rest = 0 then children else visitTileLoop is_root dim_bound children rest
      let s ← iterate (tileIteration ctx node current_dim_idx dim_bound loop ori_start loop_end inner)
        (loop_end - ori_start).toNat ⟨s.walk, s.tally.clearSkew node loop.name_⟩
      let t := s.tally.restoreSkew s.walk.current_node_ loop.name_
      if current_dim_idx = 0 then
        let t ← finishTile ctx s.walk.current_node_ t
        let w := s.walk.moveTo (up s.walk.current_node_)
        .ok ⟨w.setStart node current_dim_idx ori_start, t⟩
      else .ok ⟨s.walk.setStart node current_dim_idx ori_start, t⟩

def descend (i : Nat) (s : PerfState) : Exec PerfState := do
  let child ← ctx.ev.child s.walk.current_node_ i
  .ok ⟨s.walk.moveTo child, s.tally⟩

def ascend (s : PerfState) : PerfState :=
  ⟨s.walk.moveTo (up s.walk.current_node_), s.tally⟩

mutual

/-- `node->accept(this)`. `ptr` is the node itself, apart from `current_node_`. -/
def visit (ptr : NodePtr) : Node → PerfState → Exec PerfState
  | .mk info cs => fun s => do
    let s : PerfState := ⟨s.walk, s.tally.record
      (.enter ptr s.walk.current_node_ s.walk.current_loop_state_ s.tally.dim_skew)⟩
    let s ← match info.kind with
      | .Op _ => .ok (ascend ⟨s.walk, opTally ctx s.walk s.tally⟩)
      | .Trans => do
        let t ← transTally ctx s.walk s.tally
        .ok (ascend ⟨s.walk, t⟩)
      | .Scope _ => do
        let s ← scopeChildren ptr 0 cs ⟨s.walk, s.tally.setRow s.walk.current_node_ []⟩
        let node := s.walk.current_node_
        let row := s.tally.latency_sub_vec_ node
        if row = [] then .error .outOfRange
        else .ok (ascend ⟨s.walk, s.tally.setRows node (s.tally.latency_vec_ node ++ [row])⟩)
      | .Tile _ loops =>
        visitTileLoop ctx (get_parent ptr).isNone loops.length
          (fun s => do
            let s ← tileChildren ptr 0 cs ⟨s.walk, s.tally.setRow s.walk.current_node_ []⟩
            let t ← pushRow s.walk.current_node_ s.tally
            .ok ⟨s.walk, t⟩) loops.length s
    .ok ⟨s.walk, s.tally.record (.leave ptr s.walk.current_node_)⟩

def scopeChildren (ptr : NodePtr) : Nat → List Node → PerfState → Exec PerfState
  | _, [] => fun s => .ok s
  | i, c :: cs => fun s => do
    let s ← descend ctx i s
    let s ← visit (i :: ptr) c s
    let node := s.walk.current_node_
    let child ← ctx.ev.child node i
    let t :=
      if ctx.ev.get_type child = .Trans then s.tally
      else s.tally.setRow node (s.tally.latency_sub_vec_ node ++ [s.tally.latencyOf child])
    scopeChildren ptr (i + 1) cs ⟨s.walk, t⟩

/-- The loop of `visitTileLoop` over the children, which a Scope ends. -/
def tileChildren (ptr : NodePtr) : Nat → List Node → PerfState → Exec PerfState
  | _, [] => fun s => .ok s
  | i, c :: cs => fun s => do
    let s ← descend ctx i s
    let s ← visit (i :: ptr) c s
    let node := s.walk.current_node_
    let child ← ctx.ev.child node i
    if ctx.ev.get_type child = .Scope then
      .ok ⟨s.walk, s.tally.setRow node (s.tally.latency_sub_vec_ child)⟩
    else
      tileChildren ptr (i + 1) cs
        ⟨s.walk, s.tally.setRow node (s.tally.latency_sub_vec_ node ++ [s.tally.latencyOf child])⟩

end

def initial (tree : EvaTree) : PerfState where
  walk :=
    { toEvaStacks := tree.toEvaStacks, current_node_ := [], vec_last_dim_ := fun _ => [],
      current_loop_state_ := [] }
  tally :=
    { toEvaTensors := tree.toEvaTensors, toEvaLatencies := tree.toEvaLatencies,
      current_dim_skew_ := tree.current_dim_skew_, dim_skew := fun _ => 0,
      data_movements_ := 0, log := [] }

def run (ev : Evaluator) (tree : EvaTree) (leaf_vec_ : List NodePtr) : Exec PerfState :=
  visit ⟨ev, tree.toEvaOffsets, leaf_vec_⟩ [] ev.root_ (initial tree)

end PerfAnalysis

end TileExp.Analysis
