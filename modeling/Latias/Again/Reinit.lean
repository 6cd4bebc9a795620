import Latias.Again.Recount
import Latias.Library.Keys
import Latias.Offsets.Total

/-! `InitAnalysis` on a tree that keeps tensors and offsets from an earlier evaluation. -/

namespace TileExp.Analysis

open Checked

namespace InitAnalysis

variable {ev : Evaluator} {s s' : InitState} {node ptr : NodePtr} {dim_name : String}

/-! The tensors: what a pass writes covers what was there. -/

/-- The state of a pass over a tree that had the tensors `old` on its nodes. -/
def overlay (old : EvaTensors) (s : InitState) : InitState :=
  { s with
    input_tensors_ := fun node => s.input_tensors_ node ∪ old.input_tensors_ node
    output_tensors_ := fun node => s.output_tensors_ node ∪ old.output_tensors_ node }

variable {old : EvaTensors}

theorem update_union (tables under : NodePtr → Table TensorMap) (node : NodePtr) (name : String)
    (m : TensorMap) :
    Function.update (fun ptr => tables ptr ∪ under ptr) node
        (AList.insert name m (tables node ∪ under node)) =
      fun ptr => Function.update tables node ((tables node).insert name m) ptr ∪ under ptr := by
  funext ptr
  by_cases here : ptr = node
  · subst here
    rw [Function.update_self, Function.update_self, AList.insert_union]
  · rw [Function.update_of_ne here, Function.update_of_ne here]

theorem add_input_tensors_overlay (m : TensorMap) (name : String) (node : NodePtr) (s : InitState) :
    add_input_tensors m name node (overlay old s) = overlay old (add_input_tensors m name node s) := by
  simp only [add_input_tensors, overlay, update_union]

theorem add_output_tensors_overlay (m : TensorMap) (name : String) (node : NodePtr)
    (s : InitState) :
    add_output_tensors m name node (overlay old s) =
      overlay old (add_output_tensors m name node s) := by
  simp only [add_output_tensors, overlay, update_union]

theorem addPathTensor_overlay (path : List NodePtr) (m : TensorMap) (is_input : Bool)
    (s : InitState) :
    addPathTensor path m is_input (overlay old s) = overlay old (addPathTensor path m is_input s) := by
  induction path generalizing s with
  | nil => rfl
  | cons node path ih =>
    rw [addPathTensor_cons, addPathTensor_cons, ← ih]
    cases is_input with
    | true => exact congrArg _ (add_input_tensors_overlay m m.tensor_name_ node s)
    | false => exact congrArg _ (add_output_tensors_overlay m m.tensor_name_ node s)

theorem initOpTensors_overlay (dimName : Table (List String)) (node : NodePtr)
    (names : List String) (s : InitState) :
    initOpTensors dimName node names (overlay old s) = (do
      let s ← initOpTensors dimName node names s
      .ok (overlay old s)) := by
  induction names generalizing s with
  | nil => rfl
  | cons tensor rest ih =>
    cases rest with
    | nil =>
      rw [initOpTensors, initOpTensors, add_output_tensors_overlay, bind_assoc]
      exact bind_congr fun _ => rfl
    | cons next rest =>
      have step : ∀ s, initOpTensors dimName node (tensor :: next :: rest) s =
          initOpTensors dimName node (next :: rest)
            (add_input_tensors ⟨tensor, (dimName.lookup tensor).getD [], ∅⟩ tensor node s) :=
        fun _ => rfl
      rw [step, step, add_input_tensors_overlay, ih]

theorem initOpTensor_overlay (sub : Node) (node : NodePtr) (s : InitState) :
    initOpTensor ev sub node (overlay old s) = (do
      let s ← initOpTensor ev sub node s
      .ok (overlay old s)) := by
  unfold initOpTensor
  cases ev.get_type node with
  | Op =>
    simp only [bind_assoc]
    refine bind_congr fun names => bind_congr fun dimName => ?_
    exact @initOpTensors_overlay old dimName node names
      { s with op_num_ := s.op_num_ + 1, leaf_vec_ := s.leaf_vec_ ++ [node] }
  | Trans => rfl
  | Tile => rfl
  | Scope => rfl

theorem initOutputTensor_overlay (m : TensorMap) (node : NodePtr) (s : InitState) :
    initOutputTensor m node (overlay old s) = (do
      let s ← initOutputTensor m node s
      .ok (overlay old s)) := by
  have leaves : (overlay old s).leaf_vec_ = s.leaf_vec_ := rfl
  have ops : (overlay old s).op_num_ = s.op_num_ := rfl
  unfold initOutputTensor
  rw [leaves, ops]
  split
  · cases s.leaf_vec_.getLast? with
    | none => rfl
    | some last =>
      simp only [addParentTensor, addPathTensor_overlay]
      rfl
  · rfl

theorem initInputTensor_overlay (m : TensorMap) (node : NodePtr) (s : InitState) :
    initInputTensor ev m node (overlay old s) = (do
      let s ← initInputTensor ev m node s
      .ok (overlay old s)) := by
  have producers : (overlay old s).producer_map_ = s.producer_map_ := rfl
  unfold initInputTensor
  rw [producers]
  cases s.producer_map_.lookup m.tensor_name_ with
  | none =>
    simp only [addParentTensor, addPathTensor_overlay]
    rfl
  | some producer =>
    simp only [addPathTensor_overlay, bind_assoc]
    exact bind_congr fun _ => rfl

theorem initTensors_overlay (dimName : Table (List String)) (node : NodePtr)
    (names : List String) (s : InitState) :
    initTensors ev dimName node names (overlay old s) = (do
      let s ← initTensors ev dimName node names s
      .ok (overlay old s)) := by
  induction names generalizing s with
  | nil => rfl
  | cons tensor rest ih =>
    cases rest with
    | nil =>
      rw [initTensors, initTensors]
      exact initOutputTensor_overlay _ node s
    | cons next rest =>
      have step : ∀ s, initTensors ev dimName node (tensor :: next :: rest) s = (do
          let s ← initInputTensor ev ⟨tensor, (dimName.lookup tensor).getD [], ∅⟩ node s
          initTensors ev dimName node (next :: rest) s) := fun _ => rfl
      rw [step, step, initInputTensor_overlay, bind_assoc, bind_assoc]
      exact bind_congr fun s => ih s

theorem initTensor_overlay (sub : Node) (node : NodePtr) (s : InitState) :
    initTensor ev sub node (overlay old s) = (do
      let s ← initTensor ev sub node s
      .ok (overlay old s)) := by
  unfold initTensor
  split
  · simp only [bind_assoc]
    refine bind_congr fun names => bind_congr fun dimName => ?_
    exact @initTensors_overlay ev old dimName node names { s with op_num_ := s.op_num_ - 1 }
  · rfl

/-! The offsets: each is written before it is read. -/

/-- No node has the last offset of a dimension that is not one of its loops'. -/
def OwnLasts (ev : Evaluator) (offsets : EvaOffsets) : Prop :=
  ∀ node name, name ∉ ev.dims node → offsets.last_dim_offset_ node name = none

theorem OwnLasts.add (own : OwnLasts ev s.toEvaOffsets) {name : String}
    (member : name ∈ ev.dims node) (value last : Int) :
    OwnLasts ev (add_last_dim_offset name last node (add_dim_offset name value node s)).toEvaOffsets := by
  intro ptr dim absent
  by_cases here : ptr = node
  · subst here
    have apart : dim ≠ name := by
      rintro rfl
      exact absent member
    simpa [add_last_dim_offset, add_dim_offset, apart] using own ptr dim absent
  · simpa [add_last_dim_offset, add_dim_offset, here] using own ptr dim absent

theorem setOffset_eq_ok {loop : Descriptor} (step : setOffset ev node s loop = .ok s') :
    ∃ value last, s' = add_last_dim_offset loop.name_ last node
      (add_dim_offset loop.name_ value node s) := by
  unfold setOffset at step
  split at step
  · cases step
  · cases step
    exact ⟨_, _, rfl⟩

theorem getOffset_lasts (own : OwnLasts ev s.toEvaOffsets)
    (step : getOffset ev (ev.ori_node_ node) node s = .ok s') : OwnLasts ev s'.toEvaOffsets := by
  unfold getOffset at step
  split at step
  · split at step
    · cases step
      exact own
    · refine foldlM_induction step (fun _ s => OwnLasts ev s.toEvaOffsets) own ?_
      intro done loop rest before after split own next
      obtain ⟨value, last, rfl⟩ := setOffset_eq_ok next
      apply own.add
      have inside : loop ∈ (ev.ori_node_ node).loopnests_ := by
        rw [split]
        exact List.mem_append_right done List.mem_cons_self
      exact List.mem_map_of_mem inside
  · split at step
    · cases step
      exact own
    · cases step
      exact @List.foldlRecOn _ _ (fun s => OwnLasts ev s.toEvaOffsets) _ _ s own
        fun before own loop inside => own.add (List.mem_map_of_mem inside) 1 1

theorem OffsetsInit.unique {offsets offsets' : EvaOffsets} (init : OffsetsInit ev offsets)
    (init' : OffsetsInit ev offsets') (node : NodePtr) (found : (ev.root_.get? node).isSome) :
    ∀ name ∈ ev.dims node, offsets.dim_offset_ node name = offsets'.dim_offset_ node name ∧
      offsets.last_dim_offset_ node name = offsets'.last_dim_offset_ node name := by
  refine Evaluator.below_induction (fun node found below name member => ?_) node found
  by_cases leaf : (ev.ori_node_ node).children = []
  · obtain ⟨dim, last⟩ := (init.settled node found).leaf leaf name member
    obtain ⟨dim', last'⟩ := (init'.settled node found).leaf leaf name member
    exact ⟨dim.trans dim'.symm, last.trans last'.symm⟩
  · obtain ⟨pair, there, value⟩ := (init.settled node found).inner leaf name member
    obtain ⟨pair', there', value'⟩ := (init'.settled node found).inner leaf name member
    have same : firstChildOffset ev offsets name (ev.get_children node) =
        firstChildOffset ev offsets' name (ev.get_children node) := by
      refine firstChildOffset_entries fun top child ptr under => ?_
      obtain ⟨i, _, rfl⟩ := List.mem_map.mp child
      rw [EvaOffsets.entry, EvaOffsets.entry]
      by_cases own : name ∈ ev.dims ptr
      · have inside : (ev.root_.get? ptr).isSome := by
          cases at_ptr : ev.root_.get? ptr with
          | none => rw [dims_of_missing at_ptr] at own; cases own
          | some sub => rfl
        obtain ⟨dim, last⟩ := below ptr ((List.suffix_cons i node).trans under)
          (children_apart child under) inside name own
        rw [dim, last]
      · have none := (init.carries ptr name).not.mpr own
        have none' := (init'.carries ptr name).not.mpr own
        rw [Option.not_isSome_iff_eq_none.mp none, Option.not_isSome_iff_eq_none.mp none']
        rfl
    rw [there, there'] at same
    cases same
    exact ⟨value.dim_offset_.trans value'.dim_offset_.symm,
      value.last_dim_offset_.trans value'.last_dim_offset_.symm⟩

theorem OffsetsInit.eq {offsets offsets' : EvaOffsets} (init : OffsetsInit ev offsets)
    (init' : OffsetsInit ev offsets') (lasts : OwnLasts ev offsets) (lasts' : OwnLasts ev offsets') :
    offsets = offsets' := by
  have same (node : NodePtr) (name : String) :
      offsets.dim_offset_ node name = offsets'.dim_offset_ node name ∧
        offsets.last_dim_offset_ node name = offsets'.last_dim_offset_ node name := by
    by_cases own : name ∈ ev.dims node
    · refine init.unique init' node ?_ name own
      cases found : ev.root_.get? node with
      | none => rw [dims_of_missing found] at own; cases own
      | some sub => rfl
    · have none := (init.carries node name).not.mpr own
      have none' := (init'.carries node name).not.mpr own
      rw [Option.not_isSome_iff_eq_none.mp none, Option.not_isSome_iff_eq_none.mp none',
        lasts node name own, lasts' node name own]
      exact ⟨rfl, rfl⟩
  cases offsets
  cases offsets'
  congr 1
  · exact funext fun node => funext fun name => (same node name).1
  · exact funext fun node => funext fun name => (same node name).2

theorem initOffset_lasts {sub : Node} (step : initOffset ev sub node s = .ok s') :
    s'.last_dim_offset_ = s.last_dim_offset_ := by
  cases step
  refine List.foldlRecOn (motive := fun s' => s'.last_dim_offset_ = s.last_dim_offset_)
    (ev.loopnests_ node) (fun s dim => add_dim_offset dim.name_ 1 node s) rfl ?_
  exact fun before same _ _ => same

theorem offsetPasses_lasts {s₀ s₁ s₂ : InitState} (own : OwnLasts ev s₀.toEvaOffsets)
    (first : (Rose.preorder [] ev.root_).foldlM
      (fun s ptr => initOffset ev (ev.ori_node_ ptr) ptr s) s₀ = .ok s₁)
    (second : (Rose.postorder [] ev.root_).foldlM
      (fun s ptr => getOffset ev (ev.ori_node_ ptr) ptr s) s₁ = .ok s₂) :
    OwnLasts ev s₂.toEvaOffsets := by
  have start : OwnLasts ev s₁.toEvaOffsets := by
    refine foldlM_induction first (fun _ s => OwnLasts ev s.toEvaOffsets) own ?_
    intro done ptr rest before after _ own step node name absent
    rw [initOffset_lasts step]
    exact own node name absent
  exact foldlM_induction second (fun _ s => OwnLasts ev s.toEvaOffsets) start
    fun done ptr rest before after _ own step => getOffset_lasts own step

/-- A second run leaves the tensors, the offsets and the leaves of the first, whatever the offsets
    it starts from, as long as the tensors it finds are some of those it writes. -/
theorem run_again {tree₁ tree tree₂ : EvaTree} {leaf_vec_ : List NodePtr}
    (run : InitAnalysis.run ev tree₁ = .ok (tree, leaf_vec_)) (empty : tree₁.NoTensors)
    (own₁ : OwnDims ev tree₁.toEvaOffsets) (lasts₁ : OwnLasts ev tree₁.toEvaOffsets)
    (own₂ : OwnDims ev tree₂.toEvaOffsets) (lasts₂ : OwnLasts ev tree₂.toEvaOffsets)
    (inputs : ∀ node, ∀ name ∈ tree₂.input_tensors_ node, name ∈ tree.input_tensors_ node)
    (outputs : ∀ node, ∀ name ∈ tree₂.output_tensors_ node, name ∈ tree.output_tensors_ node) :
    InitAnalysis.run ev tree₂ = .ok ({ tree₂ with
      toEvaTensors := tree.toEvaTensors, toEvaOffsets := tree.toEvaOffsets }, leaf_vec_) := by
  obtain ⟨s₁, s₂, s₃, s₄, first, second, third, fourth, rfl, rfl⟩ := run_eq_ok run
  have known := getOffsets_settled (initOffsets_carries (s := initial tree₁) own₁ first) second
  obtain ⟨r₁, r₂, first', second'⟩ := @offsetPasses_total ev (initial tree₂) known.loopedBelow own₂
  have known' := getOffsets_settled (initOffsets_carries (s := initial tree₂) own₂ first') second'
  have offsets : r₂.toEvaOffsets = s₂.toEvaOffsets :=
    known'.eq known
      (offsetPasses_lasts (show OwnLasts ev (initial tree₂).toEvaOffsets from lasts₂) first' second')
      (offsetPasses_lasts (show OwnLasts ev (initial tree₁).toEvaOffsets from lasts₁) first second)
  have same := offsetPasses_sameTensors first second
  have same' := offsetPasses_sameTensors first' second'
  have start : r₂ = overlay tree₂.toEvaTensors s₂ := by
    obtain ⟨tensors, tensor_offsets, op_num_, producer_map_, leaf_vec_⟩ := r₂
    have blank_inputs (node : NodePtr) : s₂.input_tensors_ node = ∅ := by
      rw [same.tensors]
      exact empty.1 node
    have blank_outputs (node : NodePtr) : s₂.output_tensors_ node = ∅ := by
      rw [same.tensors]
      exact empty.2 node
    simp only at offsets
    simp only [overlay, blank_inputs, blank_outputs, AList.empty_union]
    rw [InitState.mk.injEq]
    exact ⟨same'.tensors, offsets, same'.op_num_.trans same.op_num_.symm,
      same'.producer_map_.trans same.producer_map_.symm, same'.leaf_vec_.trans same.leaf_vec_.symm⟩
  have tables : (overlay tree₂.toEvaTensors s₄).toEvaTensors = s₄.toEvaTensors := by
    have left (node : NodePtr) : s₄.input_tensors_ node ∪ tree₂.input_tensors_ node =
        s₄.input_tensors_ node := Keys.union_of_subset (inputs node)
    have right (node : NodePtr) : s₄.output_tensors_ node ∪ tree₂.output_tensors_ node =
        s₄.output_tensors_ node := Keys.union_of_subset (outputs node)
    simp only [overlay, left, right]
  rw [run_eq, first', ok_bind, second', ok_bind, start,
    foldlM_commutes (fun s ptr => initOpTensor_overlay (ev.ori_node_ ptr) ptr s), third, ok_bind,
    ok_bind, foldlM_commutes (fun s ptr => initTensor_overlay (ev.ori_node_ ptr) ptr s), fourth,
    ok_bind, ok_bind, tables]
  rfl

end InitAnalysis

end TileExp.Analysis
