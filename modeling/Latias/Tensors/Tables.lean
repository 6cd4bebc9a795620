import Latias.Analysis.InitAnalysis
import Latias.Analysis.TraversalOrder

namespace TileExp.Analysis

def Evaluator.opWorkload (ev : Evaluator) (node : NodePtr) : Exec Workload :=
  ev.workloads_.get_workload (nameSub (ev.ori_node_ node).get_name)

def Evaluator.IsOp (ev : Evaluator) (node : NodePtr) : Prop :=
  (ev.root_.get? node).isSome ∧ ev.get_type node = .Op

def Evaluator.Consumes (ev : Evaluator) (node : NodePtr) (tensor : String) : Prop :=
  ∃ workload, ev.opWorkload node = .ok workload ∧ tensor ∈ workload.ins_

def Evaluator.Produces (ev : Evaluator) (node : NodePtr) (tensor : String) : Prop :=
  ∃ workload, ev.opWorkload node = .ok workload ∧ workload.out_ = tensor

def Evaluator.tensorDims (ev : Evaluator) (tensor : String) : List String :=
  match Workloads.dimNamesOf ev.workloads_.common_shape_ tensor with
  | .ok dims => dims
  | .error _ => []

def Evaluator.blankMap (ev : Evaluator) (tensor : String) : TensorMap :=
  ⟨tensor, ev.tensorDims tensor, ∅⟩

def EvaTree.NoTensors (tree : EvaTree) : Prop :=
  (∀ node, tree.input_tensors_ node = ∅) ∧ ∀ node, tree.output_tensors_ node = ∅

namespace InitAnalysis

open Checked

variable {ev : Evaluator} {s s' : InitState} {m : TensorMap} {name tensor : String}
  {node ptr : NodePtr} {path : List NodePtr}

theorem lookup_add_input_tensors :
    ((add_input_tensors m name node s).input_tensors_ ptr).lookup tensor =
      if ptr = node ∧ tensor = name then some m else (s.input_tensors_ ptr).lookup tensor := by
  by_cases here : ptr = node
  · subst here
    by_cases same : tensor = name
    · subst same
      simp [add_input_tensors]
    · simp [add_input_tensors, same]
  · simp [add_input_tensors, here]

theorem lookup_add_output_tensors :
    ((add_output_tensors m name node s).output_tensors_ ptr).lookup tensor =
      if ptr = node ∧ tensor = name then some m else (s.output_tensors_ ptr).lookup tensor := by
  by_cases here : ptr = node
  · subst here
    by_cases same : tensor = name
    · subst same
      simp [add_output_tensors]
    · simp [add_output_tensors, same]
  · simp [add_output_tensors, here]

structure SameRest (s s' : InitState) : Prop where
  offsets : s'.toEvaOffsets = s.toEvaOffsets
  op_num_ : s'.op_num_ = s.op_num_
  producer_map_ : s'.producer_map_ = s.producer_map_
  leaf_vec_ : s'.leaf_vec_ = s.leaf_vec_

theorem SameRest.refl (s : InitState) : SameRest s s := ⟨rfl, rfl, rfl, rfl⟩

theorem SameRest.trans {s₁ s₂ s₃ : InitState} (first : SameRest s₁ s₂) (second : SameRest s₂ s₃) :
    SameRest s₁ s₃ :=
  ⟨second.offsets.trans first.offsets, second.op_num_.trans first.op_num_,
    second.producer_map_.trans first.producer_map_, second.leaf_vec_.trans first.leaf_vec_⟩

theorem add_input_tensors_rest : SameRest s (add_input_tensors m name node s) :=
  ⟨rfl, rfl, rfl, rfl⟩

theorem add_output_tensors_rest : SameRest s (add_output_tensors m name node s) :=
  ⟨rfl, rfl, rfl, rfl⟩

theorem addPathTensor_cons (is_input : Bool) :
    addPathTensor (node :: path) m is_input s = addPathTensor path m is_input
      (if is_input then add_input_tensors m m.tensor_name_ node s
        else add_output_tensors m m.tensor_name_ node s) := rfl

theorem addPathTensor_rest (is_input : Bool) : SameRest s (addPathTensor path m is_input s) := by
  induction path generalizing s with
  | nil => exact SameRest.refl s
  | cons node path ih =>
    rw [addPathTensor_cons]
    refine SameRest.trans ?_ ih
    cases is_input
    · exact add_output_tensors_rest
    · exact add_input_tensors_rest

theorem addPathTensor_input_output :
    (addPathTensor path m true s).output_tensors_ = s.output_tensors_ := by
  induction path generalizing s with
  | nil => rfl
  | cons node path ih => exact ih

theorem addPathTensor_output_input :
    (addPathTensor path m false s).input_tensors_ = s.input_tensors_ := by
  induction path generalizing s with
  | nil => rfl
  | cons node path ih => exact ih

theorem lookup_addPathTensor_input :
    ((addPathTensor path m true s).input_tensors_ ptr).lookup tensor =
      if ptr ∈ path ∧ tensor = m.tensor_name_ then some m
      else (s.input_tensors_ ptr).lookup tensor := by
  induction path generalizing s with
  | nil => simp [addPathTensor]
  | cons node path ih =>
    rw [addPathTensor_cons, ih, if_pos rfl, lookup_add_input_tensors]
    by_cases below : ptr ∈ path <;> by_cases here : ptr = node <;>
      by_cases same : tensor = m.tensor_name_ <;> simp [below, here, same]

theorem lookup_addPathTensor_output :
    ((addPathTensor path m false s).output_tensors_ ptr).lookup tensor =
      if ptr ∈ path ∧ tensor = m.tensor_name_ then some m
      else (s.output_tensors_ ptr).lookup tensor := by
  induction path generalizing s with
  | nil => simp [addPathTensor]
  | cons node path ih =>
    rw [addPathTensor_cons, ih, if_neg Bool.false_ne_true, lookup_add_output_tensors]
    by_cases below : ptr ∈ path <;> by_cases here : ptr = node <;>
      by_cases same : tensor = m.tensor_name_ <;> simp [below, here, same]

/-- The four passes, each as a loop over the positions of the tree. -/
theorem run_eq (tree : EvaTree) : InitAnalysis.run ev tree = (do
    let s ← (Rose.preorder [] ev.root_).foldlM
      (fun s ptr => initOffset ev (ev.ori_node_ ptr) ptr s) (initial tree)
    let s ← (Rose.postorder [] ev.root_).foldlM
      (fun s ptr => getOffset ev (ev.ori_node_ ptr) ptr s) s
    let s ← (Rose.postorder [] ev.root_).foldlM
      (fun s ptr => initOpTensor ev (ev.ori_node_ ptr) ptr s) s
    let s ← (Rose.postorder [] ev.root_).foldlM
      (fun s ptr => initTensor ev (ev.ori_node_ ptr) ptr s) s
    .ok ({ tree with toEvaTensors := s.toEvaTensors, toEvaOffsets := s.toEvaOffsets },
      s.leaf_vec_)) := by
  have found : ev.root_.get? [] = some ev.root_ := rfl
  simp only [InitAnalysis.run, passes, traverse_before ev _ [] ev.root_ found,
    traverse_after ev _ [] ev.root_ found, up, get_parent, Option.getD_none, bind_assoc, ok_bind]

theorem run_eq_ok {tree tree' : EvaTree} {leaf_vec_ : List NodePtr}
    (run : InitAnalysis.run ev tree = .ok (tree', leaf_vec_)) :
    ∃ s₁ s₂ s₃ s₄,
      (Rose.preorder [] ev.root_).foldlM
        (fun s ptr => initOffset ev (ev.ori_node_ ptr) ptr s) (initial tree) = .ok s₁ ∧
      (Rose.postorder [] ev.root_).foldlM
        (fun s ptr => getOffset ev (ev.ori_node_ ptr) ptr s) s₁ = .ok s₂ ∧
      (Rose.postorder [] ev.root_).foldlM
        (fun s ptr => initOpTensor ev (ev.ori_node_ ptr) ptr s) s₂ = .ok s₃ ∧
      (Rose.postorder [] ev.root_).foldlM
        (fun s ptr => initTensor ev (ev.ori_node_ ptr) ptr s) s₃ = .ok s₄ ∧
      tree' = { tree with toEvaTensors := s₄.toEvaTensors, toEvaOffsets := s₄.toEvaOffsets } ∧
      leaf_vec_ = s₄.leaf_vec_ := by
  rw [run_eq] at run
  obtain ⟨s₁, first, run⟩ := bind_eq_ok.mp run
  obtain ⟨s₂, second, run⟩ := bind_eq_ok.mp run
  obtain ⟨s₃, third, run⟩ := bind_eq_ok.mp run
  obtain ⟨s₄, fourth, result⟩ := bind_eq_ok.mp run
  cases result
  exact ⟨s₁, s₂, s₃, s₄, first, second, third, fourth, rfl, rfl⟩

end InitAnalysis

end TileExp.Analysis
