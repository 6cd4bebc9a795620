import Latias.Tensors.CommonNode

namespace TileExp.Analysis.InitAnalysis

open Checked

variable {ev : Evaluator} {s s' start : InitState} {node ptr : NodePtr} {tensor : String}

abbrev Producers := Table (TensorMap × NodePtr)

/-- The nodes that `initTensor` gives an input of the op at `node`. -/
def inputPath (ev : Evaluator) (producers : Producers) (leaf_vec_ : List NodePtr) (node : NodePtr)
    (tensor : String) : List NodePtr :=
  match producers.lookup tensor with
  | none => Rose.ancestors node
  | some producer =>
    match findCommonNode ev leaf_vec_ producer.2 node with
    | .ok paths => paths.consumer_path_
    | .error _ => []

/-- The nodes that `initTensor` gives the tensor as an output, for the op at `node` that reads it. -/
def producerPath (ev : Evaluator) (producers : Producers) (leaf_vec_ : List NodePtr)
    (node : NodePtr) (tensor : String) : List NodePtr :=
  match producers.lookup tensor with
  | none => []
  | some producer =>
    match findCommonNode ev leaf_vec_ producer.2 node with
    | .ok paths => paths.producer_path_
    | .error _ => []

def outputPath (leaf_vec_ : List NodePtr) (node : NodePtr) : List NodePtr :=
  leaf_vec_.drop (leaf_vec_.idxOf node) ++
    match leaf_vec_.getLast? with
    | some last => Rose.ancestors last
    | none => []

structure InputTagged (ev : Evaluator) (node : NodePtr) (tensor : String) (s s' : InitState) :
    Prop where
  rest : SameRest s s'
  found : ∀ producer, s.producer_map_.lookup tensor = some producer →
    ∃ paths, findCommonNode ev s.leaf_vec_ producer.2 node = .ok paths
  inputs : ∀ ptr name, (s'.input_tensors_ ptr).lookup name =
    if name = tensor ∧ ptr ∈ inputPath ev s.producer_map_ s.leaf_vec_ node tensor
    then some (ev.blankMap name) else (s.input_tensors_ ptr).lookup name
  outputs : ∀ ptr name, (s'.output_tensors_ ptr).lookup name =
    if name = tensor ∧ ptr ∈ producerPath ev s.producer_map_ s.leaf_vec_ node tensor
    then some (ev.blankMap name) else (s.output_tensors_ ptr).lookup name

theorem initInputTensor_eq_ok (run : initInputTensor ev (ev.blankMap tensor) node s = .ok s') :
    InputTagged ev node tensor s s' := by
  rw [initInputTensor] at run
  cases known : s.producer_map_.lookup (ev.blankMap tensor).tensor_name_ with
  | none =>
    rw [known] at run
    cases run
    refine ⟨addPathTensor_rest true, ?_, ?_, ?_⟩
    · intro producer present
      cases known.symm.trans present
    · intro ptr name
      rw [addParentTensor, lookup_addPathTensor_input, inputPath]
      simp only [show s.producer_map_.lookup tensor = none from known]
      by_cases same : name = tensor
      · subst same
        simp [Evaluator.blankMap]
      · simp [same, Evaluator.blankMap]
    · intro ptr name
      rw [addParentTensor, addPathTensor_input_output, producerPath]
      simp only [show s.producer_map_.lookup tensor = none from known]
      simp
  | some producer =>
    rw [known] at run
    obtain ⟨paths, common, result⟩ := bind_eq_ok.mp run
    cases result
    refine ⟨(addPathTensor_rest false).trans (addPathTensor_rest true), ?_, ?_, ?_⟩
    · intro other present
      cases known.symm.trans present
      exact ⟨paths, common⟩
    · intro ptr name
      rw [lookup_addPathTensor_input, addPathTensor_output_input, inputPath]
      simp only [show s.producer_map_.lookup tensor = some producer from known, common]
      by_cases same : name = tensor
      · subst same
        simp [Evaluator.blankMap]
      · simp [same, Evaluator.blankMap]
    · intro ptr name
      rw [addPathTensor_input_output, lookup_addPathTensor_output, producerPath]
      simp only [show s.producer_map_.lookup tensor = some producer from known, common]
      by_cases same : name = tensor
      · subst same
        simp [Evaluator.blankMap]
      · simp [same, Evaluator.blankMap]

theorem initTensors_concat (dimName : Table (List String)) (ins : List String) (out : String)
    (s : InitState) :
    initTensors ev dimName node (ins ++ [out]) s = (do
      let s ← ins.foldlM (fun s t =>
        initInputTensor ev ⟨t, (dimName.lookup t).getD [], ∅⟩ node s) s
      initOutputTensor ⟨out, (dimName.lookup out).getD [], ∅⟩ node s) := by
  induction ins generalizing s with
  | nil => rfl
  | cons t ins ih =>
    have unfolded : initTensors ev dimName node (t :: ins ++ [out]) s = (do
        let s ← initInputTensor ev ⟨t, (dimName.lookup t).getD [], ∅⟩ node s
        initTensors ev dimName node (ins ++ [out]) s) := by
      cases ins <;> rfl
    rw [unfolded, List.foldlM_cons, bind_assoc]
    exact bind_congr fun s => ih s

structure InputsTagged (ev : Evaluator) (node : NodePtr) (ins : List String) (s s' : InitState) :
    Prop where
  rest : SameRest s s'
  found : ∀ name ∈ ins, ∀ producer, s.producer_map_.lookup name = some producer →
    ∃ paths, findCommonNode ev s.leaf_vec_ producer.2 node = .ok paths
  inputs : ∀ ptr name, (s'.input_tensors_ ptr).lookup name =
    if name ∈ ins ∧ ptr ∈ inputPath ev s.producer_map_ s.leaf_vec_ node name
    then some (ev.blankMap name) else (s.input_tensors_ ptr).lookup name
  outputs : ∀ ptr name, (s'.output_tensors_ ptr).lookup name =
    if name ∈ ins ∧ ptr ∈ producerPath ev s.producer_map_ s.leaf_vec_ node name
    then some (ev.blankMap name) else (s.output_tensors_ ptr).lookup name

theorem InputsTagged.snoc {ins : List String} {s₁ s₂ s₃ : InitState}
    (before : InputsTagged ev node ins s₁ s₂) (step : InputTagged ev node tensor s₂ s₃) :
    InputsTagged ev node (ins ++ [tensor]) s₁ s₃ := by
  refine ⟨before.rest.trans step.rest, ?_, ?_, ?_⟩
  · intro name member producer present
    rcases List.mem_append.mp member with earlier | last
    · exact before.found name earlier producer present
    · cases List.mem_singleton.mp last
      rw [← before.rest.leaf_vec_]
      exact step.found producer (by rw [before.rest.producer_map_, present])
  · intro ptr name
    rw [step.inputs, before.inputs, before.rest.producer_map_, before.rest.leaf_vec_]
    by_cases same : name = tensor
    · subst same
      by_cases earlier : name ∈ ins <;>
        by_cases placed : ptr ∈ inputPath ev s₁.producer_map_ s₁.leaf_vec_ node name <;>
        simp [earlier, placed]
    · simp [same]
  · intro ptr name
    rw [step.outputs, before.outputs, before.rest.producer_map_, before.rest.leaf_vec_]
    by_cases same : name = tensor
    · subst same
      by_cases earlier : name ∈ ins <;>
        by_cases placed : ptr ∈ producerPath ev s₁.producer_map_ s₁.leaf_vec_ node name <;>
        simp [earlier, placed]
    · simp [same]

theorem foldlM_inputs {dimName : Table (List String)} {ins : List String}
    (known : ∀ t ∈ ins, dimName.lookup t = some (ev.tensorDims t))
    (run : ins.foldlM (fun s t =>
      initInputTensor ev ⟨t, (dimName.lookup t).getD [], ∅⟩ node s) s = .ok s') :
    InputsTagged ev node ins s s' := by
  refine foldlM_induction run (fun done s' => InputsTagged ev node done s s') ?_ ?_
  · exact ⟨SameRest.refl s, by simp, by simp, by simp⟩
  · intro done t rest mid after split before step
    refine before.snoc (initInputTensor_eq_ok ?_)
    rw [known t (by rw [split]; simp)] at step
    exact step

structure OutputTagged (ev : Evaluator) (node : NodePtr) (tensor : String) (s s' : InitState) :
    Prop where
  rest : SameRest s s'
  inputs : s'.input_tensors_ = s.input_tensors_
  outputs : ∀ ptr name, (s'.output_tensors_ ptr).lookup name =
    if name = tensor ∧ s.op_num_ = 0 ∧ ptr ∈ outputPath s.leaf_vec_ node
    then some (ev.blankMap name) else (s.output_tensors_ ptr).lookup name

theorem initOutputTensor_eq_ok (run : initOutputTensor (ev.blankMap tensor) node s = .ok s') :
    OutputTagged ev node tensor s s' := by
  rw [initOutputTensor] at run
  split at run
  · next zero =>
    cases last : s.leaf_vec_.getLast? with
    | none => rw [last] at run; cases run
    | some leaf =>
      rw [last] at run
      cases run
      refine ⟨(addPathTensor_rest false).trans (addPathTensor_rest false), ?_, ?_⟩
      · rw [addParentTensor, addPathTensor_output_input, addPathTensor_output_input]
      · intro ptr name
        rw [addParentTensor, lookup_addPathTensor_output, lookup_addPathTensor_output, outputPath,
          last]
        by_cases same : name = tensor
        · subst same
          by_cases upper : ptr ∈ Rose.ancestors leaf <;>
            by_cases later : ptr ∈ s.leaf_vec_.drop (s.leaf_vec_.idxOf node) <;>
            simp [upper, later, zero, Evaluator.blankMap]
        · simp [same, Evaluator.blankMap]
  · next more =>
    cases run
    refine ⟨SameRest.refl s, rfl, ?_⟩
    simp [more]

structure OpTagged (ev : Evaluator) (node : NodePtr) (workload : Workload) (s s' : InitState) :
    Prop where
  call : ev.opWorkload node = .ok workload
  offsets : s'.toEvaOffsets = s.toEvaOffsets
  op_num_ : s'.op_num_ = s.op_num_ - 1
  producer_map_ : s'.producer_map_ = s.producer_map_
  leaf_vec_ : s'.leaf_vec_ = s.leaf_vec_
  found : ∀ name ∈ workload.ins_, ∀ producer, s.producer_map_.lookup name = some producer →
    ∃ paths, findCommonNode ev s.leaf_vec_ producer.2 node = .ok paths
  inputs : ∀ ptr name, (s'.input_tensors_ ptr).lookup name =
    if name ∈ workload.ins_ ∧ ptr ∈ inputPath ev s.producer_map_ s.leaf_vec_ node name
    then some (ev.blankMap name) else (s.input_tensors_ ptr).lookup name
  outputs : ∀ ptr name, (s'.output_tensors_ ptr).lookup name =
    if (name = workload.out_ ∧ s.op_num_ = 1 ∧ ptr ∈ outputPath s.leaf_vec_ node) ∨
      (name ∈ workload.ins_ ∧ ptr ∈ producerPath ev s.producer_map_ s.leaf_vec_ node name)
    then some (ev.blankMap name) else (s.output_tensors_ ptr).lookup name

theorem initTensor_op {sub : Node} (op : ev.get_type node = .Op)
    (run : initTensor ev sub node s = .ok s') : ∃ workload, OpTagged ev node workload s s' := by
  rw [initTensor, if_pos op] at run
  obtain ⟨names, read, run⟩ := bind_eq_ok.mp run
  obtain ⟨dimName, dims, run⟩ := bind_eq_ok.mp run
  obtain ⟨workload, call, rfl⟩ := getInOutTensor_eq_ok read
  have known : ∀ t ∈ workload.ins_ ++ [workload.out_],
      dimName.lookup t = some (ev.tensorDims t) := fun t member => getDimName_eq_ok dims member
  rw [initTensors_concat, known workload.out_ (by simp)] at run
  obtain ⟨mid, first, second⟩ := bind_eq_ok.mp run
  have ins := foldlM_inputs (fun t member => known t (List.mem_append_left _ member)) first
  have out : OutputTagged ev node workload.out_ mid s' := initOutputTensor_eq_ok second
  refine ⟨workload, call, out.rest.offsets.trans ins.rest.offsets,
    out.rest.op_num_.trans ins.rest.op_num_, out.rest.producer_map_.trans ins.rest.producer_map_,
    out.rest.leaf_vec_.trans ins.rest.leaf_vec_, ins.found, ?_, ?_⟩
  · intro ptr name
    rw [out.inputs]
    exact ins.inputs ptr name
  · intro ptr name
    rw [out.outputs, ins.outputs, ins.rest.op_num_, ins.rest.leaf_vec_, ite_or]
    simp only [Int.sub_eq_zero]

theorem initTensor_inner {sub : Node} (inner : ev.get_type node ≠ .Op)
    (run : initTensor ev sub node s = .ok s') : s' = s := by
  rw [initTensor, if_neg inner] at run
  cases run
  rfl

end TileExp.Analysis.InitAnalysis
