import Latias.Analysis.PerfState

namespace TileExp.Analysis

variable (ctx : PerfContext)

def findFirstLeaf : NodePtr → Node → NodePtr
  | node, .mk _ [] => node
  | node, .mk _ (c :: _) => findFirstLeaf (0 :: node) c

/-- The name of the tensor that comes through a Trans: that of the leaf before the first leaf of
    `current_node_`, if it is a Trans. -/
def transTensorName (t : Tally) (current_node_ : NodePtr) : Exec String :=
  let leaf_node_tmp := findFirstLeaf current_node_ (ctx.ev.ori_node_ current_node_)
  match ctx.leaf_vec_.idxOf leaf_node_tmp with
  | 0 => .ok ""
  | current_leaf_idx + 1 =>
    match ctx.leaf_vec_[current_leaf_idx]? with
    | none => .error .outOfRange
    | some prev_leaf =>
      if ctx.ev.get_type prev_leaf = .Trans then
        let keys := (t.output_tensors_ prev_leaf).keys
        if keys = [] then .error .outOfRange else .ok (ctx.ev.hash_.begin_ keys)
      else .ok ""

/-- The range `addCurrentTensor` gives one dimension: from the node's own loop if it has one, else
    from the nearest loop below. -/
def currentDimRange (w : Walk) (dim_skew : String → Int) (dim_name : String) : Exec StEd :=
  let skew := dim_skew dim_name
  match w.current_dim_range_ w.current_node_ dim_name,
      w.current_offset_ w.current_node_ dim_name with
  | dim_range :: _, offset_tmp :: _ =>
    .ok (dim_range.1 * offset_tmp.1 + skew,
      (dim_range.2 - 1) * offset_tmp.1 + offset_tmp.2 + skew)
  | _ :: _, [] => .error .outOfRange
  | [], _ =>
    match BFSOffsetLoop ctx.ev ctx.offsets w.current_node_ dim_name with
    | some (offset_tmp, loop_tmp) =>
      .ok (skew, skew + offset_tmp.1 * (loop_tmp.2 - 1) + offset_tmp.2)
    | none => .error (.assertion "BFS fail")

def currentTensorMap (w : Walk) (dim_skew : String → Int) (tensor_name : String)
    (tensor_dims : List String) : Exec TensorMap := do
  let dim_range_map ← tensor_dims.foldlM (fun (dim_range_map : Table DimRange) dim_name => do
    let dim_range ← currentDimRange ctx w dim_skew dim_name
    .ok (dim_range_map.insert dim_name ⟨dim_name, dim_range.1, dim_range.2⟩)) ∅
  .ok ⟨tensor_name, tensor_dims, dim_range_map⟩

/-- The data movement of one tensor: inputs pay for what the last map did not cover, outputs for
    everything, and the root for nothing. -/
def tensorMovement (is_input : Bool) (current_node_ : NodePtr) (before after : TensorMap) :
    Exec Int :=
  if get_parent current_node_ = none then .ok 0
  else if is_input then calTensorMapDM before after
  else calTensorMapVolume after

def chargeTensor (w : Walk) (dim_skew : String → Int) (is_input : Bool)
    (tensor_tmp : Sigma fun _ : String => TensorMap) : Exec Charge := do
  let after ← currentTensorMap ctx w dim_skew tensor_tmp.1 tensor_tmp.2.tensor_dims_
  let amount ← tensorMovement is_input w.current_node_ tensor_tmp.2 after
  .ok ⟨tensor_tmp.1, tensor_tmp.2, after, amount⟩

def writeCharges (table : Table TensorMap) (charges : List Charge) : Table TensorMap :=
  charges.foldl (fun table charge => table.insert charge.tensor_name charge.after) table

def totalAmount (charges : List Charge) : Int := (charges.map Charge.amount).sum

/-- `addCurrentTensor`: the movement from a tile and the movement from a Trans. The keys of a
    table are distinct, so each round reads the map the call found. -/
def addCurrentTensor (w : Walk) (is_input : Bool) (t : Tally) : Exec (Tally × Int × Int) := do
  let node := w.current_node_
  let trans_tensor_name ← transTensorName ctx t node
  if is_input then
    let charges ← (t.input_tensors_ node).entries.mapM (chargeTensor ctx w t.dim_skew true)
    let trans := charges.filter fun charge => charge.tensor_name = trans_tensor_name
    let tile := charges.filter fun charge => charge.tensor_name ≠ trans_tensor_name
    let table := writeCharges (t.input_tensors_ node) charges
    .ok ({ t with input_tensors_ := Function.update t.input_tensors_ node table }.record
      (.charge node true w.current_loop_state_ charges), totalAmount tile, totalAmount trans)
  else
    let charges ← (t.output_tensors_ node).entries.mapM (chargeTensor ctx w t.dim_skew false)
    let table := writeCharges (t.output_tensors_ node) charges
    .ok ({ t with output_tensors_ := Function.update t.output_tensors_ node table }.record
      (.charge node false w.current_loop_state_ charges), totalAmount charges, 0)

end TileExp.Analysis
