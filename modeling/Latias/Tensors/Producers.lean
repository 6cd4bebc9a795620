import Latias.Tensors.Tables

namespace TileExp.Analysis.InitAnalysis

open Checked

variable {ev : Evaluator} {s s' : InitState} {node ptr : NodePtr} {tensor : String}

theorem getDimName_eq_ok {names : List String} {dimName : Table (List String)}
    (call : ev.workloads_.getDimName names = .ok dimName) (member : tensor ∈ names) :
    dimName.lookup tensor = some (ev.tensorDims tensor) := by
  refine foldlM_induction call
    (fun done table => ∀ t ∈ done, table.lookup t = some (ev.tensorDims t)) ?_ ?_ tensor member
  · intro t none
    cases none
  · intro done t rest table table' _ known step u found
    obtain ⟨dims, read, write⟩ := bind_eq_ok.mp step
    cases write
    by_cases same : u = t
    · subst same
      rw [AList.lookup_insert, Evaluator.tensorDims, read]
    · rw [AList.lookup_insert_ne same]
      exact known u ((List.mem_append.mp found).resolve_right (by simpa using same))

theorem getInOutTensor_eq_ok {name : String} {names : List String}
    (call : ev.workloads_.getInOutTensor name = .ok names) :
    ∃ workload, ev.workloads_.get_workload name = .ok workload ∧
      names = workload.ins_ ++ [workload.out_] := by
  obtain ⟨workload, read, result⟩ := bind_eq_ok.mp call
  cases result
  exact ⟨workload, read, rfl⟩

theorem initOpTensors_concat (dimName : Table (List String)) (ins : List String) (out : String)
    (s : InitState) :
    initOpTensors dimName node (ins ++ [out]) s = initOpTensors dimName node [out]
      (ins.foldl (fun s t =>
        add_input_tensors ⟨t, (dimName.lookup t).getD [], ∅⟩ t node s) s) := by
  induction ins generalizing s with
  | nil => rfl
  | cons t ins ih =>
    cases ins with
    | nil => rfl
    | cons u ins => exact ih _

theorem foldl_inputs (dimName : Table (List String)) (ins : List String)
    (known : ∀ t ∈ ins, dimName.lookup t = some (ev.tensorDims t)) (s : InitState) :
    ∃ s', ins.foldl (fun s t =>
        add_input_tensors ⟨t, (dimName.lookup t).getD [], ∅⟩ t node s) s = s' ∧
      SameRest s s' ∧ s'.output_tensors_ = s.output_tensors_ ∧ ∀ ptr tensor,
        (s'.input_tensors_ ptr).lookup tensor =
          if ptr = node ∧ tensor ∈ ins then some (ev.blankMap tensor)
          else (s.input_tensors_ ptr).lookup tensor := by
  induction ins generalizing s with
  | nil => exact ⟨s, rfl, SameRest.refl s, rfl, by simp⟩
  | cons t ins ih =>
    obtain ⟨s', result, rest, outputs, inputs⟩ :=
      ih (fun u member => known u (List.mem_cons_of_mem t member))
        (add_input_tensors ⟨t, (dimName.lookup t).getD [], ∅⟩ t node s)
    refine ⟨s', result, add_input_tensors_rest.trans rest, outputs, ?_⟩
    intro ptr tensor
    rw [inputs, lookup_add_input_tensors, known t List.mem_cons_self]
    by_cases here : ptr = node <;> by_cases later : tensor ∈ ins <;>
      by_cases same : tensor = t <;> simp [here, later, same, Evaluator.blankMap]

structure OpRegistered (ev : Evaluator) (node : NodePtr) (workload : Workload)
    (s s' : InitState) : Prop where
  call : ev.opWorkload node = .ok workload
  absent : s.producer_map_.lookup workload.out_ = none
  offsets : s'.toEvaOffsets = s.toEvaOffsets
  op_num_ : s'.op_num_ = s.op_num_ + 1
  leaf_vec_ : s'.leaf_vec_ = s.leaf_vec_ ++ [node]
  producer_map_ : s'.producer_map_ =
    s.producer_map_.insert workload.out_ (ev.blankMap workload.out_, node)
  inputs : ∀ ptr tensor, (s'.input_tensors_ ptr).lookup tensor =
    if ptr = node ∧ tensor ∈ workload.ins_ then some (ev.blankMap tensor)
    else (s.input_tensors_ ptr).lookup tensor
  outputs : ∀ ptr tensor, (s'.output_tensors_ ptr).lookup tensor =
    if ptr = node ∧ tensor = workload.out_ then some (ev.blankMap tensor)
    else (s.output_tensors_ ptr).lookup tensor

theorem initOpTensor_op {sub : Node} (op : ev.get_type node = .Op)
    (run : initOpTensor ev sub node s = .ok s') :
    ∃ workload, OpRegistered ev node workload s s' := by
  rw [initOpTensor, op] at run
  obtain ⟨names, read, run⟩ := bind_eq_ok.mp run
  obtain ⟨dimName, dims, run⟩ := bind_eq_ok.mp run
  obtain ⟨workload, call, rfl⟩ := getInOutTensor_eq_ok read
  have known : ∀ t ∈ workload.ins_ ++ [workload.out_],
      dimName.lookup t = some (ev.tensorDims t) := fun t member => getDimName_eq_ok dims member
  obtain ⟨mid, folded, rest, outputs, inputs⟩ := @foldl_inputs ev node dimName workload.ins_
    (fun t member => known t (List.mem_append_left _ member))
    { s with op_num_ := s.op_num_ + 1, leaf_vec_ := s.leaf_vec_ ++ [node] }
  rw [initOpTensors_concat, folded, initOpTensors,
    known workload.out_ (List.mem_append_right _ (List.mem_singleton_self _))] at run
  obtain ⟨_, checked, result⟩ := bind_eq_ok.mp run
  have absent := Option.isNone_iff_eq_none.mp (tileexpAssert_eq_ok.mp checked)
  cases result
  refine ⟨workload, call, ?_, rest.offsets, rest.op_num_, rest.leaf_vec_, ?_, inputs, ?_⟩
  · exact (congrArg _ rest.producer_map_.symm).trans absent
  · exact congrArg (AList.insert workload.out_ (ev.blankMap workload.out_, node))
      rest.producer_map_
  · intro ptr tensor
    refine lookup_add_output_tensors.trans ?_
    rw [outputs]
    by_cases hit : ptr = node ∧ tensor = workload.out_
    · obtain ⟨rfl, rfl⟩ := hit
      simp [Evaluator.blankMap]
    · simp [hit]

theorem initOpTensor_trans {sub : Node} (trans : ev.get_type node = .Trans)
    (run : initOpTensor ev sub node s = .ok s') :
    s' = { s with leaf_vec_ := s.leaf_vec_ ++ [node] } := by
  rw [initOpTensor, trans] at run
  cases run
  rfl

theorem initOpTensor_inner {sub : Node} (op : ev.get_type node ≠ .Op)
    (trans : ev.get_type node ≠ .Trans) (run : initOpTensor ev sub node s = .ok s') : s' = s := by
  rw [initOpTensor] at run
  cases kind : ev.get_type node with
  | Op => exact absurd kind op
  | Trans => exact absurd kind trans
  | Tile => rw [kind] at run; cases run; rfl
  | Scope => rw [kind] at run; cases run; rfl

def isLeaf (ev : Evaluator) (node : NodePtr) : Bool :=
  ev.get_type node = .Op ∨ ev.get_type node = .Trans

structure Registered (ev : Evaluator) (start : InitState) (done : List NodePtr) (s : InitState) :
    Prop where
  offsets : s.toEvaOffsets = start.toEvaOffsets
  op_num_ : s.op_num_ = start.op_num_ + (done.countP fun node => ev.get_type node = .Op)
  leaf_vec_ : s.leaf_vec_ = start.leaf_vec_ ++ done.filter (isLeaf ev)
  producers : ∀ tensor m node, s.producer_map_.lookup tensor = some (m, node) ↔
    node ∈ done ∧ ev.get_type node = .Op ∧ ev.Produces node tensor ∧ m = ev.blankMap tensor
  inputs : ∀ node tensor m, (s.input_tensors_ node).lookup tensor = some m ↔
    node ∈ done ∧ ev.get_type node = .Op ∧ ev.Consumes node tensor ∧ m = ev.blankMap tensor
  outputs : ∀ node tensor m, (s.output_tensors_ node).lookup tensor = some m ↔
    node ∈ done ∧ ev.get_type node = .Op ∧ ev.Produces node tensor ∧ m = ev.blankMap tensor

theorem Registered.op {start : InitState} {done : List NodePtr} {workload : Workload}
    (before : Registered ev start done s) (op : ev.get_type node = .Op)
    (step : OpRegistered ev node workload s s') : Registered ev start (done ++ [node]) s' := by
  have consumes : ∀ tensor, ev.Consumes node tensor ↔ tensor ∈ workload.ins_ := by
    intro tensor
    simp [Evaluator.Consumes, step.call]
  have produces : ∀ tensor, ev.Produces node tensor ↔ workload.out_ = tensor := by
    intro tensor
    simp [Evaluator.Produces, step.call]
  refine ⟨step.offsets.trans before.offsets, ?_, ?_, ?_, ?_, ?_⟩
  · rw [step.op_num_, before.op_num_, List.countP_append, List.countP_singleton,
      if_pos (by simpa using op)]
    push_cast
    omega
  · rw [step.leaf_vec_, before.leaf_vec_, List.filter_append, List.append_assoc,
      List.filter_singleton]
    simp [isLeaf, op]
  · intro tensor m ptr
    rw [step.producer_map_]
    by_cases same : tensor = workload.out_
    · subst same
      have fresh : ∀ m ptr, ¬ (ptr ∈ done ∧ ev.get_type ptr = .Op ∧
          ev.Produces ptr workload.out_ ∧ m = ev.blankMap workload.out_) := by
        intro m ptr known
        have present := (before.producers workload.out_ m ptr).mpr known
        rw [step.absent] at present
        cases present
      rw [AList.lookup_insert, Option.some_inj, Prod.mk.injEq]
      constructor
      · rintro ⟨rfl, rfl⟩
        exact ⟨by simp, op, (produces _).mpr rfl, rfl⟩
      · rintro ⟨member, kind, made, rfl⟩
        rcases List.mem_append.mp member with earlier | last
        · exact absurd ⟨earlier, kind, made, rfl⟩ (fresh _ ptr)
        · exact ⟨rfl, (List.mem_singleton.mp last).symm⟩
    · rw [AList.lookup_insert_ne same, before.producers, List.mem_append, List.mem_singleton]
      constructor
      · rintro ⟨member, rest⟩
        exact ⟨Or.inl member, rest⟩
      · rintro ⟨member | rfl, kind, made, shape⟩
        · exact ⟨member, kind, made, shape⟩
        · exact absurd ((produces tensor).mp made).symm same
  · intro ptr tensor m
    rw [step.inputs]
    split
    · next hit =>
      obtain ⟨rfl, member⟩ := hit
      simp [op, (consumes tensor).mpr member, eq_comm]
    · next miss =>
      rw [before.inputs, List.mem_append, List.mem_singleton]
      constructor
      · rintro ⟨member, rest⟩
        exact ⟨Or.inl member, rest⟩
      · rintro ⟨member | rfl, kind, used, shape⟩
        · exact ⟨member, kind, used, shape⟩
        · exact absurd ⟨rfl, (consumes tensor).mp used⟩ miss
  · intro ptr tensor m
    rw [step.outputs]
    split
    · next hit =>
      obtain ⟨rfl, rfl⟩ := hit
      simp [op, (produces workload.out_).mpr rfl, eq_comm]
    · next miss =>
      rw [before.outputs, List.mem_append, List.mem_singleton]
      constructor
      · rintro ⟨member, rest⟩
        exact ⟨Or.inl member, rest⟩
      · rintro ⟨member | rfl, kind, made, shape⟩
        · exact ⟨member, kind, made, shape⟩
        · exact absurd ⟨rfl, ((produces tensor).mp made).symm⟩ miss

theorem Registered.other {start : InitState} {done : List NodePtr}
    (before : Registered ev start done s) (op : ev.get_type node ≠ .Op)
    (tables : s'.toEvaTensors = s.toEvaTensors) (offsets : s'.toEvaOffsets = s.toEvaOffsets)
    (op_num_ : s'.op_num_ = s.op_num_) (producer_map_ : s'.producer_map_ = s.producer_map_)
    (leaf_vec_ : s'.leaf_vec_ = s.leaf_vec_ ++ [node].filter (isLeaf ev)) :
    Registered ev start (done ++ [node]) s' := by
  have same : ∀ ptr (fact : Prop), (ptr ∈ done ++ [node] ∧ ev.get_type ptr = .Op ∧ fact) ↔
      (ptr ∈ done ∧ ev.get_type ptr = .Op ∧ fact) := by
    intro ptr fact
    rw [List.mem_append, List.mem_singleton]
    constructor
    · rintro ⟨member | rfl, kind, rest⟩
      · exact ⟨member, kind, rest⟩
      · exact absurd kind op
    · rintro ⟨member, rest⟩
      exact ⟨Or.inl member, rest⟩
  refine ⟨offsets.trans before.offsets, ?_, ?_, ?_, ?_, ?_⟩
  · rw [op_num_, before.op_num_, List.countP_append, List.countP_singleton,
      if_neg (by simpa using op), Nat.add_zero]
  · rw [leaf_vec_, before.leaf_vec_, List.filter_append, List.append_assoc]
  · intro tensor m ptr
    rw [same, producer_map_, before.producers]
  · intro ptr tensor m
    rw [same, congrArg EvaTensors.input_tensors_ tables, before.inputs]
  · intro ptr tensor m
    rw [same, congrArg EvaTensors.output_tensors_ tables, before.outputs]

/-- The third pass over any positions registers exactly the Ops among them. -/
theorem registered {start : InitState} {positions : List NodePtr}
    (inputs : ∀ node, start.input_tensors_ node = ∅)
    (outputs : ∀ node, start.output_tensors_ node = ∅) (producers : start.producer_map_ = ∅)
    (run : positions.foldlM (fun s ptr => initOpTensor ev (ev.ori_node_ ptr) ptr s) start = .ok s) :
    Registered ev start positions s := by
  refine foldlM_induction run (fun done s => Registered ev start done s) ?_ ?_
  · refine ⟨rfl, by simp, by simp, ?_, ?_, ?_⟩
    · simp [producers]
    · simp [inputs]
    · simp [outputs]
  · intro done node rest s s' _ before step
    cases kind : ev.get_type node with
    | Op =>
      obtain ⟨workload, made⟩ := initOpTensor_op kind step
      exact before.op kind made
    | Trans =>
      rw [initOpTensor_trans kind step]
      exact before.other (by simp [kind]) rfl rfl rfl rfl (by simp [isLeaf, kind])
    | Tile =>
      rw [initOpTensor_inner (by simp [kind]) (by simp [kind]) step]
      exact before.other (by simp [kind]) rfl rfl rfl rfl (by simp [isLeaf, kind])
    | Scope =>
      rw [initOpTensor_inner (by simp [kind]) (by simp [kind]) step]
      exact before.other (by simp [kind]) rfl rfl rfl rfl (by simp [isLeaf, kind])

end TileExp.Analysis.InitAnalysis
