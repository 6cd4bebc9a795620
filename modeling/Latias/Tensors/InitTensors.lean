import Latias.Tensors.Tagging

namespace TileExp.Analysis

def Evaluator.IsLastOp (ev : Evaluator) (node : NodePtr) : Prop :=
  ∃ before after, Rose.postorder [] ev.root_ = before ++ node :: after ∧
    ev.get_type node = .Op ∧ ∀ ptr ∈ after, ev.get_type ptr ≠ .Op

namespace InitAnalysis

open Checked

variable {ev : Evaluator} {s s' start : InitState} {node ptr : NodePtr} {tensor : String}

def opCount (ev : Evaluator) (positions : List NodePtr) : Nat :=
  positions.countP fun node => ev.get_type node = .Op

def Blank (ev : Evaluator) (tables : NodePtr → Table TensorMap) : Prop :=
  ∀ ptr tensor m, (tables ptr).lookup tensor = some m → m = ev.blankMap tensor

theorem mem_iff_lookup {table : Table TensorMap} : tensor ∈ table ↔ ∃ m, table.lookup tensor = some m := by
  rw [← AList.lookup_isSome, Option.isSome_iff_exists]

structure Tagged (ev : Evaluator) (start : InitState) (done : List NodePtr) (s : InitState) :
    Prop where
  offsets : s.toEvaOffsets = start.toEvaOffsets
  producer_map_ : s.producer_map_ = start.producer_map_
  leaf_vec_ : s.leaf_vec_ = start.leaf_vec_
  op_num_ : s.op_num_ = start.op_num_ - opCount ev done
  found : ∀ node ∈ done, ev.get_type node = .Op → ∀ tensor, ev.Consumes node tensor →
    ∀ producer, start.producer_map_.lookup tensor = some producer →
      ∃ paths, findCommonNode ev start.leaf_vec_ producer.2 node = .ok paths
  inputs : ∀ ptr tensor, tensor ∈ s.input_tensors_ ptr ↔ tensor ∈ start.input_tensors_ ptr ∨
    ∃ node ∈ done, ev.get_type node = .Op ∧ ev.Consumes node tensor ∧
      ptr ∈ inputPath ev start.producer_map_ start.leaf_vec_ node tensor
  outputs : ∀ ptr tensor, tensor ∈ s.output_tensors_ ptr ↔
    (tensor ∈ start.output_tensors_ ptr ∨
      ∃ before node after, done = before ++ node :: after ∧ ev.get_type node = .Op ∧
        ev.Produces node tensor ∧ start.op_num_ = opCount ev before + 1 ∧
        ptr ∈ outputPath start.leaf_vec_ node) ∨
      ∃ node ∈ done, ev.get_type node = .Op ∧ ev.Consumes node tensor ∧
        ptr ∈ producerPath ev start.producer_map_ start.leaf_vec_ node tensor
  called : ∀ node ∈ done, ev.get_type node = .Op → ∃ tensor, ev.Produces node tensor
  blank_inputs : Blank ev start.input_tensors_ → Blank ev s.input_tensors_
  blank_outputs : Blank ev start.output_tensors_ → Blank ev s.output_tensors_

theorem exists_split_concat {done : List NodePtr} {node : NodePtr}
    {P : List NodePtr → NodePtr → Prop} :
    (∃ before mid after, done ++ [node] = before ++ mid :: after ∧ P before mid) ↔
      (∃ before mid after, done = before ++ mid :: after ∧ P before mid) ∨ P done node := by
  constructor
  · rintro ⟨before, mid, after, split, fact⟩
    rcases List.eq_nil_or_concat after with rfl | ⟨after, last, rfl⟩
    · obtain ⟨rfl, rfl⟩ := List.append_inj' split rfl |>.imp id List.singleton_inj.mp
      exact Or.inr fact
    · rw [List.concat_eq_append, ← List.cons_append, ← List.append_assoc] at split
      exact Or.inl ⟨before, mid, after, (List.append_inj' split rfl).1, fact⟩
  · rintro (⟨before, mid, after, rfl, fact⟩ | fact)
    · exact ⟨before, mid, after ++ [node], by simp, fact⟩
    · exact ⟨done, node, [], rfl, fact⟩

theorem Tagged.op {done : List NodePtr} {workload : Workload} (before : Tagged ev start done s)
    (op : ev.get_type node = .Op) (step : OpTagged ev node workload s s') :
    Tagged ev start (done ++ [node]) s' := by
  have consumes : ∀ tensor, ev.Consumes node tensor ↔ tensor ∈ workload.ins_ := by
    intro tensor
    simp [Evaluator.Consumes, step.call]
  have produces : ∀ tensor, ev.Produces node tensor ↔ workload.out_ = tensor := by
    intro tensor
    simp [Evaluator.Produces, step.call]
  have counted : opCount ev (done ++ [node]) = opCount ev done + 1 := by
    rw [opCount, List.countP_append, List.countP_singleton, if_pos (by simpa using op)]
    rfl
  refine ⟨step.offsets.trans before.offsets, step.producer_map_.trans before.producer_map_,
    step.leaf_vec_.trans before.leaf_vec_, ?_, ?_, ?_, ?_, ?_, ?_, ?_⟩
  · rw [step.op_num_, before.op_num_, counted]
    omega
  · intro ptr member kind tensor used producer present
    rcases List.mem_append.mp member with earlier | last
    · exact before.found ptr earlier kind tensor used producer present
    · cases List.mem_singleton.mp last
      rw [← before.leaf_vec_]
      exact step.found tensor ((consumes tensor).mp used) producer
        (by rw [before.producer_map_, present])
  · intro ptr tensor
    have here : tensor ∈ s'.input_tensors_ ptr ↔ tensor ∈ s.input_tensors_ ptr ∨
        (tensor ∈ workload.ins_ ∧
          ptr ∈ inputPath ev start.producer_map_ start.leaf_vec_ node tensor) := by
      rw [mem_iff_lookup, mem_iff_lookup, step.inputs, before.producer_map_, before.leaf_vec_]
      split
      · next hit => simp [hit]
      · next miss => simp [miss]
    rw [here, before.inputs, ← consumes, or_assoc]
    simp only [List.mem_append, List.mem_singleton, or_and_right, exists_or, exists_eq_left, op,
      true_and]
  · intro ptr tensor
    have here : tensor ∈ s'.output_tensors_ ptr ↔ (tensor ∈ s.output_tensors_ ptr ∨
        (ev.Produces node tensor ∧ start.op_num_ = opCount ev done + 1 ∧
          ptr ∈ outputPath start.leaf_vec_ node)) ∨
        (ev.Consumes node tensor ∧
          ptr ∈ producerPath ev start.producer_map_ start.leaf_vec_ node tensor) := by
      have last : start.op_num_ - (opCount ev done : Int) = 1 ↔
          start.op_num_ = opCount ev done + 1 := by omega
      rw [mem_iff_lookup, mem_iff_lookup, step.outputs, before.producer_map_, before.leaf_vec_,
        before.op_num_, ← last, produces, consumes, eq_comm (a := workload.out_), or_assoc]
      split
      · next hit => simp [hit]
      · next miss => simp [miss]
    rw [here, before.outputs, exists_split_concat (P := fun before node => ev.get_type node = .Op ∧
      ev.Produces node tensor ∧ start.op_num_ = opCount ev before + 1 ∧
      ptr ∈ outputPath start.leaf_vec_ node)]
    simp only [List.mem_append, List.mem_singleton, or_and_right, exists_or, exists_eq_left, op,
      true_and]
    have regroup (a e d l c : Prop) : (((a ∨ e) ∨ d) ∨ l) ∨ c ↔ (a ∨ e ∨ l) ∨ d ∨ c := by tauto
    exact regroup _ _ _ _ _
  · intro ptr member kind
    rcases List.mem_append.mp member with earlier | last
    · exact before.called ptr earlier kind
    · cases List.mem_singleton.mp last
      exact ⟨workload.out_, (produces _).mpr rfl⟩
  · intro blank ptr tensor m found
    rw [step.inputs] at found
    split at found
    · cases found
      rfl
    · exact before.blank_inputs blank ptr tensor m found
  · intro blank ptr tensor m found
    rw [step.outputs] at found
    split at found
    · cases found
      rfl
    · exact before.blank_outputs blank ptr tensor m found

theorem Tagged.inner {done : List NodePtr} (before : Tagged ev start done s)
    (inner : ev.get_type node ≠ .Op) : Tagged ev start (done ++ [node]) s := by
  refine ⟨before.offsets, before.producer_map_, before.leaf_vec_, ?_, ?_, ?_, ?_, ?_,
    before.blank_inputs, before.blank_outputs⟩
  · rw [before.op_num_, opCount, opCount, List.countP_append, List.countP_singleton,
      if_neg (by simpa using inner), Nat.add_zero]
  · intro ptr member kind
    rcases List.mem_append.mp member with earlier | last
    · exact before.found ptr earlier kind
    · cases List.mem_singleton.mp last
      exact absurd kind inner
  · intro ptr tensor
    rw [before.inputs]
    simp [or_and_right, exists_or, inner]
  · intro ptr tensor
    rw [exists_split_concat (P := fun before node => ev.get_type node = .Op ∧
      ev.Produces node tensor ∧ start.op_num_ = opCount ev before + 1 ∧
      ptr ∈ outputPath start.leaf_vec_ node), before.outputs]
    simp [inner, or_and_right, exists_or]
  · intro ptr member kind
    rcases List.mem_append.mp member with earlier | last
    · exact before.called ptr earlier kind
    · cases List.mem_singleton.mp last
      exact absurd kind inner

theorem tagged {positions : List NodePtr}
    (run : positions.foldlM (fun s ptr => initTensor ev (ev.ori_node_ ptr) ptr s) start = .ok s) :
    Tagged ev start positions s := by
  refine foldlM_induction run (fun done s => Tagged ev start done s) ?_ ?_
  · refine ⟨rfl, rfl, rfl, by simp [opCount], by simp, ?_, ?_, by simp, id, id⟩
    · simp
    · simp
  · intro done node rest s s' _ before step
    by_cases op : ev.get_type node = .Op
    · obtain ⟨workload, made⟩ := initTensor_op op step
      exact before.op op made
    · rw [initTensor_inner op step]
      exact before.inner op

structure SameTensors (s s' : InitState) : Prop where
  tensors : s'.toEvaTensors = s.toEvaTensors
  op_num_ : s'.op_num_ = s.op_num_
  producer_map_ : s'.producer_map_ = s.producer_map_
  leaf_vec_ : s'.leaf_vec_ = s.leaf_vec_

theorem SameTensors.refl (s : InitState) : SameTensors s s := ⟨rfl, rfl, rfl, rfl⟩

theorem SameTensors.trans {s₁ s₂ s₃ : InitState} (first : SameTensors s₁ s₂)
    (second : SameTensors s₂ s₃) : SameTensors s₁ s₃ :=
  ⟨second.tensors.trans first.tensors, second.op_num_.trans first.op_num_,
    second.producer_map_.trans first.producer_map_, second.leaf_vec_.trans first.leaf_vec_⟩

theorem foldl_sameTensors {α : Type} {f : InitState → α → InitState}
    (step : ∀ s a, SameTensors s (f s a)) (l : List α) (s : InitState) :
    SameTensors s (l.foldl f s) := by
  induction l generalizing s with
  | nil => exact SameTensors.refl s
  | cons a l ih => exact (step s a).trans (ih (f s a))

theorem setOffset_sameTensors {loop : Descriptor} (run : setOffset ev node s loop = .ok s') :
    SameTensors s s' := by
  rw [setOffset] at run
  split at run
  · cases run
  · cases run
    exact ⟨rfl, rfl, rfl, rfl⟩

theorem getOffset_sameTensors {sub : Node} (run : getOffset ev sub node s = .ok s') :
    SameTensors s s' := by
  rw [getOffset] at run
  split at run
  · split at run
    · cases run
      exact SameTensors.refl s
    · refine foldlM_induction run (fun _ s' => SameTensors s s') (SameTensors.refl s) ?_
      intro done loop rest mid after _ before step
      exact before.trans (setOffset_sameTensors step)
  · split at run
    · cases run
      exact SameTensors.refl s
    · cases run
      refine foldl_sameTensors ?_ sub.loopnests_ s
      exact fun s loop => ⟨rfl, rfl, rfl, rfl⟩

theorem initOffset_sameTensors {sub : Node} (run : initOffset ev sub node s = .ok s') :
    SameTensors s s' := by
  cases run
  refine foldl_sameTensors ?_ _ s
  exact fun s loop => ⟨rfl, rfl, rfl, rfl⟩

theorem offsetPasses_sameTensors {s₀ s₁ s₂ : InitState}
    (first : (Rose.preorder [] ev.root_).foldlM
      (fun s ptr => initOffset ev (ev.ori_node_ ptr) ptr s) s₀ = .ok s₁)
    (second : (Rose.postorder [] ev.root_).foldlM
      (fun s ptr => getOffset ev (ev.ori_node_ ptr) ptr s) s₁ = .ok s₂) : SameTensors s₀ s₂ := by
  refine @SameTensors.trans _ s₁ _ ?_ ?_
  · refine foldlM_induction first (fun _ s => SameTensors s₀ s) (SameTensors.refl s₀) ?_
    exact fun done node rest s s' _ kept step => kept.trans (initOffset_sameTensors step)
  · refine foldlM_induction second (fun _ s => SameTensors s₁ s) (SameTensors.refl s₁) ?_
    exact fun done node rest s s' _ kept step => kept.trans (getOffset_sameTensors step)

/-- The tensors, the producers and the leaves at the end of `InitAnalysis::run`. -/
structure TensorsInit (ev : Evaluator) (producers : Producers) (leaf_vec_ : List NodePtr)
    (tables : EvaTensors) : Prop where
  leaves : leaf_vec_ = (Rose.postorder [] ev.root_).filter (isLeaf ev)
  producer_map_ : ∀ tensor m node, producers.lookup tensor = some (m, node) ↔
    ev.IsOp node ∧ ev.Produces node tensor ∧ m = ev.blankMap tensor
  found : ∀ node tensor producer, ev.IsOp node → ev.Consumes node tensor →
    producers.lookup tensor = some producer →
      ∃ paths, findCommonNode ev leaf_vec_ producer.2 node = .ok paths
  inputs : ∀ ptr tensor, tensor ∈ tables.input_tensors_ ptr ↔
    (ev.IsOp ptr ∧ ev.Consumes ptr tensor) ∨ ∃ node, ev.IsOp node ∧ ev.Consumes node tensor ∧
      ptr ∈ inputPath ev producers leaf_vec_ node tensor
  outputs : ∀ ptr tensor, tensor ∈ tables.output_tensors_ ptr ↔
    ((ev.IsOp ptr ∧ ev.Produces ptr tensor) ∨
      ∃ node, ev.IsLastOp node ∧ ev.Produces node tensor ∧ ptr ∈ outputPath leaf_vec_ node) ∨
      ∃ node, ev.IsOp node ∧ ev.Consumes node tensor ∧
        ptr ∈ producerPath ev producers leaf_vec_ node tensor
  called : ∀ node, ev.IsOp node → ∃ tensor, ev.Produces node tensor
  blank_inputs : Blank ev tables.input_tensors_
  blank_outputs : Blank ev tables.output_tensors_

theorem mem_positions : node ∈ Rose.postorder [] ev.root_ ↔ (ev.root_.get? node).isSome := by
  rw [Rose.mem_postorder]
  simp

theorem isOp_iff : ev.IsOp node ↔
    node ∈ Rose.postorder [] ev.root_ ∧ ev.get_type node = .Op := by
  rw [mem_positions]
  rfl

theorem opCount_split {before after : List NodePtr} (op : ev.get_type node = .Op) :
    opCount ev (before ++ node :: after) = opCount ev before + 1 ↔
      ∀ ptr ∈ after, ev.get_type ptr ≠ .Op := by
  simp [opCount, List.countP_append, op, ← Nat.add_assoc]

/-- Where `InitAnalysis::run` puts every tensor of a tree without tensors. -/
theorem run_tensors {tree tree' : EvaTree} {leaf_vec_ : List NodePtr} (empty : tree.NoTensors)
    (run : InitAnalysis.run ev tree = .ok (tree', leaf_vec_)) :
    ∃ producers, TensorsInit ev producers leaf_vec_ tree'.toEvaTensors := by
  obtain ⟨s₁, s₂, s₃, s₄, first, second, third, fourth, rfl, rfl⟩ := run_eq_ok run
  have before : SameTensors (initial tree) s₂ := offsetPasses_sameTensors first second
  have reg : Registered ev s₂ (Rose.postorder [] ev.root_) s₃ :=
    registered (by simp [before.tensors, initial, empty.1])
      (by simp [before.tensors, initial, empty.2]) before.producer_map_ third
  have tag := tagged fourth
  have blank_inputs : Blank ev s₃.input_tensors_ := fun ptr tensor m found =>
    ((reg.inputs ptr tensor m).mp found).2.2.2
  have blank_outputs : Blank ev s₃.output_tensors_ := fun ptr tensor m found =>
    ((reg.outputs ptr tensor m).mp found).2.2.2
  have leaves : s₃.leaf_vec_ = (Rose.postorder [] ev.root_).filter (isLeaf ev) := by
    rw [reg.leaf_vec_, before.leaf_vec_]
    rfl
  have total : s₃.op_num_ = opCount ev (Rose.postorder [] ev.root_) := by
    rw [reg.op_num_, before.op_num_]
    exact Int.zero_add _
  refine ⟨s₃.producer_map_, ?_, ?_, ?_, ?_, ?_, ?_, tag.blank_inputs blank_inputs,
    tag.blank_outputs blank_outputs⟩
  · rw [tag.leaf_vec_, leaves]
  · intro tensor m node
    rw [reg.producers, isOp_iff, and_assoc]
  · intro node tensor producer op used present
    rw [tag.leaf_vec_]
    exact tag.found node (isOp_iff.mp op).1 op.2 tensor used producer present
  · intro ptr tensor
    rw [tag.inputs, mem_iff_lookup, tag.leaf_vec_]
    simp only [reg.inputs, isOp_iff, and_assoc, exists_and_left, exists_eq, and_true]
  · intro ptr tensor
    rw [tag.outputs, mem_iff_lookup, tag.leaf_vec_]
    simp only [reg.outputs, isOp_iff, and_assoc, exists_and_left, exists_eq, and_true]
    refine or_congr ?_ Iff.rfl
    refine or_congr Iff.rfl ?_
    constructor
    · rintro ⟨front, node, back, split, op, made, last, path⟩
      refine ⟨node, ⟨front, back, split, op, ?_⟩, made, path⟩
      rw [total, split] at last
      exact (opCount_split op).mp (by exact_mod_cast last)
    · rintro ⟨node, ⟨front, back, split, op, last⟩, made, path⟩
      refine ⟨front, node, back, split, op, made, ?_, path⟩
      rw [total, split, (opCount_split op).mpr last]
      rfl
  · intro node op
    exact tag.called node (isOp_iff.mp op).1 op.2

end InitAnalysis

end TileExp.Analysis
