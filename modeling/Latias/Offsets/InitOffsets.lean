import Latias.Offsets.Carrier
import Latias.Tensors.InitTensors

/-! The offsets that `InitAnalysis::run` leaves on the nodes. -/

namespace TileExp.Analysis

open Checked

def Evaluator.dims (ev : Evaluator) (node : NodePtr) : List String :=
  (ev.loopnests_ node).map Descriptor.name_

namespace InitAnalysis

variable {ev : Evaluator} {s s' : InitState} {node ptr : NodePtr} {dim_name : String}

structure OffsetFrom (offsets : EvaOffsets) (node : NodePtr) (dim_name : String)
    (pair : StEd × StEd) : Prop where
  dim_offset_ : offsets.dim_offset_ node dim_name = some (pair.2.1 * pair.1.1)
  last_dim_offset_ : offsets.last_dim_offset_ node dim_name =
    some ((pair.2.2 - 1) * pair.1.1 + pair.1.2)

/-- What `getOffset` leaves on a node. -/
structure Settled (ev : Evaluator) (offsets : EvaOffsets) (node : NodePtr) : Prop where
  leaf : (ev.ori_node_ node).children = [] → ∀ dim_name ∈ ev.dims node,
    offsets.dim_offset_ node dim_name = some 1 ∧ offsets.last_dim_offset_ node dim_name = some 1
  inner : (ev.ori_node_ node).children ≠ [] → ∀ dim_name ∈ ev.dims node, ∃ pair,
    firstChildOffset ev offsets dim_name (ev.get_children node) = some pair ∧
      OffsetFrom offsets node dim_name pair

structure SameOffsets (node : NodePtr) (names : List String) (offsets offsets' : EvaOffsets) :
    Prop where
  others : ∀ ptr ≠ node, offsets'.at ptr = offsets.at ptr
  dim_offset_ : ∀ name ∉ names, offsets'.dim_offset_ node name = offsets.dim_offset_ node name

theorem children_apart {top : NodePtr} (child : top ∈ ev.get_children node) (under : top <:+ ptr) :
    ptr ≠ node := by
  obtain ⟨i, _, rfl⟩ := List.mem_map.mp child
  rintro rfl
  exact absurd under.length_le (by simp)

theorem add_dim_offset_at (apart : ptr ≠ node) (value : Int) :
    (add_dim_offset dim_name value node s).toEvaOffsets.at ptr = s.toEvaOffsets.at ptr := by
  simp [EvaOffsets.at, add_dim_offset, apart]

theorem add_last_dim_offset_at (apart : ptr ≠ node) (value : Int) :
    (add_last_dim_offset dim_name value node s).toEvaOffsets.at ptr = s.toEvaOffsets.at ptr := by
  simp [EvaOffsets.at, add_last_dim_offset, apart]

theorem initOffset_eq {sub : Node} (step : initOffset ev sub node s = .ok s') (ptr : NodePtr)
    (name : String) : s'.dim_offset_ ptr name =
      if ptr = node ∧ name ∈ ev.dims node then some 1 else s.dim_offset_ ptr name := by
  cases step
  rw [Evaluator.dims]
  induction ev.loopnests_ node generalizing s with
  | nil => simp
  | cons loop loops ih =>
    rw [List.foldl_cons, ih]
    simp only [List.map_cons, List.mem_cons]
    by_cases here : ptr = node
    · subst here
      by_cases same : name = loop.name_
      · simp [add_dim_offset, same]
      · simp [add_dim_offset, same]
    · simp [add_dim_offset, here]

theorem setOffsets_eq_ok {loops : List Descriptor}
    (run : loops.foldlM (setOffset ev node) s = .ok s') :
    SameOffsets node (loops.map Descriptor.name_) s.toEvaOffsets s'.toEvaOffsets ∧
      ∀ name ∈ loops.map Descriptor.name_, ∃ pair,
        firstChildOffset ev s.toEvaOffsets name (ev.get_children node) = some pair ∧
          OffsetFrom s'.toEvaOffsets node name pair := by
  refine foldlM_induction run (fun done s' =>
    SameOffsets node (done.map Descriptor.name_) s.toEvaOffsets s'.toEvaOffsets ∧
      ∀ name ∈ done.map Descriptor.name_, ∃ pair,
        firstChildOffset ev s.toEvaOffsets name (ev.get_children node) = some pair ∧
          OffsetFrom s'.toEvaOffsets node name pair) ?_ ?_
  · exact ⟨⟨fun _ _ => rfl, fun _ _ => rfl⟩, fun name member => by cases member⟩
  · rintro done loop rest mid after _ ⟨same, settled⟩ step
    unfold setOffset at step
    have below : firstChildOffset ev mid.toEvaOffsets loop.name_ (ev.get_children node) =
        firstChildOffset ev s.toEvaOffsets loop.name_ (ev.get_children node) :=
      firstChildOffset_congr fun top child ptr under =>
        same.others ptr (children_apart child under)
    cases found : firstChildOffset ev mid.toEvaOffsets loop.name_ (ev.get_children node) with
    | none => rw [found] at step; cases step
    | some pair =>
      rw [found] at step
      cases step
      refine ⟨⟨fun ptr apart => ?_, fun name absent => ?_⟩, fun name member => ?_⟩
      · rw [add_last_dim_offset_at apart, add_dim_offset_at apart, same.others ptr apart]
      · have absent : name ≠ loop.name_ ∧ name ∉ done.map Descriptor.name_ := by
          simp only [List.map_append, List.mem_append, not_or, List.map_cons, List.map_nil,
            List.mem_singleton] at absent
          exact ⟨absent.2, absent.1⟩
        rw [← same.dim_offset_ name absent.2]
        simp [add_last_dim_offset, add_dim_offset, absent.1]
      · by_cases last : name = loop.name_
        · subst last
          refine ⟨pair, below ▸ found, ?_, ?_⟩
          · simp [add_last_dim_offset, add_dim_offset]
          · simp [add_last_dim_offset]
        · have earlier : name ∈ done.map Descriptor.name_ := by
            simp only [List.map_append, List.mem_append, List.map_cons, List.map_nil,
              List.mem_singleton] at member
            exact member.resolve_right last
          obtain ⟨old, at_old, settled⟩ := settled name earlier
          refine ⟨old, at_old, ?_, ?_⟩
          · rw [← settled.dim_offset_]
            simp [add_last_dim_offset, add_dim_offset, last]
          · rw [← settled.last_dim_offset_]
            simp [add_last_dim_offset, add_dim_offset, last]

def unitOffset (node : NodePtr) (s : InitState) (tmp_loop : Descriptor) : InitState :=
  add_last_dim_offset tmp_loop.name_ 1 node (add_dim_offset tmp_loop.name_ 1 node s)

theorem unitOffsets_eq (node : NodePtr) (loops : List Descriptor) (s : InitState) :
    SameOffsets node (loops.map Descriptor.name_) s.toEvaOffsets
      (loops.foldl (unitOffset node) s).toEvaOffsets ∧
      ∀ name ∈ loops.map Descriptor.name_,
        (loops.foldl (unitOffset node) s).dim_offset_ node name = some 1 ∧
        (loops.foldl (unitOffset node) s).last_dim_offset_ node name = some 1 := by
  induction loops using List.reverseRecOn with
  | nil => exact ⟨⟨fun _ _ => rfl, fun _ _ => rfl⟩, fun name member => by cases member⟩
  | append_singleton loops loop ih =>
    obtain ⟨same, units⟩ := ih
    rw [List.foldl_append, List.foldl_cons, List.foldl_nil]
    refine ⟨⟨fun ptr apart => ?_, fun name absent => ?_⟩, fun name member => ?_⟩
    · exact (add_last_dim_offset_at apart 1).trans
        ((add_dim_offset_at apart 1).trans (same.others ptr apart))
    · have absent : name ≠ loop.name_ ∧ name ∉ loops.map Descriptor.name_ := by
        simp only [List.map_append, List.mem_append, not_or, List.map_cons, List.map_nil,
          List.mem_singleton] at absent
        exact ⟨absent.2, absent.1⟩
      rw [← same.dim_offset_ name absent.2]
      simp [unitOffset, add_last_dim_offset, add_dim_offset, absent.1]
    · by_cases last : name = loop.name_
      · subst last
        simp [unitOffset, add_last_dim_offset, add_dim_offset]
      · have earlier : name ∈ loops.map Descriptor.name_ := by
          simp only [List.map_append, List.mem_append, List.map_cons, List.map_nil,
            List.mem_singleton] at member
          exact member.resolve_right last
        obtain ⟨dims, lasts⟩ := units name earlier
        simp [unitOffset, add_last_dim_offset, add_dim_offset, last, dims, lasts]

theorem loopnests_of_scope (scope : ev.get_type node = .Scope) : ev.loopnests_ node = [] := by
  unfold Evaluator.get_type Node.get_type at scope
  unfold Evaluator.loopnests_ Node.loopnests_
  cases kind : (ev.ori_node_ node).value.kind with
  | Scope type => rfl
  | Tile type loops => rw [kind] at scope; cases scope
  | Op loops => rw [kind] at scope; cases scope
  | Trans => rw [kind] at scope; cases scope

theorem loopnests_of_trans (trans : ev.get_type node = .Trans) : ev.loopnests_ node = [] := by
  unfold Evaluator.get_type Node.get_type at trans
  unfold Evaluator.loopnests_ Node.loopnests_
  cases kind : (ev.ori_node_ node).value.kind with
  | Trans => rfl
  | Tile type loops => rw [kind] at trans; cases trans
  | Op loops => rw [kind] at trans; cases trans
  | Scope type => rw [kind] at trans; cases trans

theorem getOffset_eq_ok (step : getOffset ev (ev.ori_node_ node) node s = .ok s') :
    SameOffsets node (ev.dims node) s.toEvaOffsets s'.toEvaOffsets ∧
      Settled ev s'.toEvaOffsets node := by
  have kind_eq : (ev.ori_node_ node).get_type = ev.get_type node := rfl
  unfold getOffset at step
  by_cases inner : (ev.ori_node_ node).children.length ≠ 0
  · have children : (ev.ori_node_ node).children ≠ [] := by
      intro none
      rw [none] at inner
      exact inner rfl
    rw [if_pos inner, kind_eq] at step
    by_cases scope : ev.get_type node = .Scope
    · rw [if_pos scope] at step
      cases step
      refine ⟨⟨fun _ _ => rfl, fun _ _ => rfl⟩, fun none => absurd none children, ?_⟩
      intro _ name member
      rw [Evaluator.dims, loopnests_of_scope scope] at member
      cases member
    · rw [if_neg scope] at step
      obtain ⟨same, settled⟩ := setOffsets_eq_ok step
      refine ⟨same, fun none => absurd none children, fun _ name member => ?_⟩
      obtain ⟨pair, found, value⟩ := settled name member
      refine ⟨pair, ?_, value⟩
      rw [← found]
      exact firstChildOffset_congr fun top child ptr under =>
        same.others ptr (children_apart child under)
  · have leaf : (ev.ori_node_ node).children = [] := List.length_eq_zero_iff.mp (not_not.mp inner)
    rw [if_neg inner, kind_eq] at step
    by_cases trans : ev.get_type node = .Trans
    · rw [if_pos trans] at step
      cases step
      refine ⟨⟨fun _ _ => rfl, fun _ _ => rfl⟩, fun _ name member => ?_, fun some => absurd leaf some⟩
      rw [Evaluator.dims, loopnests_of_trans trans] at member
      cases member
    · rw [if_neg trans] at step
      cases step
      obtain ⟨same, units⟩ := unitOffsets_eq node (ev.loopnests_ node) s
      exact ⟨same, fun _ => units, fun some => absurd leaf some⟩

theorem Settled.congr {offsets offsets' : EvaOffsets} (settled : Settled ev offsets node)
    (same : ∀ ptr, node <:+ ptr → offsets'.at ptr = offsets.at ptr) :
    Settled ev offsets' node := by
  have here := same node List.suffix_rfl
  have dims : offsets'.dim_offset_ node = offsets.dim_offset_ node := congrArg Prod.fst here
  have lasts : offsets'.last_dim_offset_ node = offsets.last_dim_offset_ node :=
    congrArg Prod.snd here
  constructor
  · intro leaf name member
    rw [dims, lasts]
    exact settled.leaf leaf name member
  · intro inner name member
    obtain ⟨pair, found, value⟩ := settled.inner inner name member
    refine ⟨pair, ?_, dims ▸ value.dim_offset_, lasts ▸ value.last_dim_offset_⟩
    rw [← found]
    refine firstChildOffset_congr fun top child ptr under => ?_
    obtain ⟨i, _, rfl⟩ := List.mem_map.mp child
    exact same ptr ((List.suffix_cons i node).trans under)

/-- What the offset passes leave on the whole tree. -/
structure OffsetsInit (ev : Evaluator) (offsets : EvaOffsets) : Prop where
  carries : ∀ node name, (offsets.dim_offset_ node name).isSome ↔ name ∈ ev.dims node
  settled : ∀ node, (ev.root_.get? node).isSome → Settled ev offsets node

def OwnDims (ev : Evaluator) (offsets : EvaOffsets) : Prop :=
  ∀ node name, (offsets.dim_offset_ node name).isSome → name ∈ ev.dims node

def Carries (ev : Evaluator) (offsets : EvaOffsets) : Prop :=
  ∀ node name, (offsets.dim_offset_ node name).isSome ↔ name ∈ ev.dims node

theorem getOffset_carries (carries : Carries ev s.toEvaOffsets)
    (step : getOffset ev (ev.ori_node_ node) node s = .ok s') : Carries ev s'.toEvaOffsets := by
  obtain ⟨same, here⟩ := getOffset_eq_ok step
  intro ptr name
  by_cases at_node : ptr = node
  · subst at_node
    by_cases own : name ∈ ev.dims ptr
    · refine iff_of_true ?_ own
      by_cases leaf : (ev.ori_node_ ptr).children = []
      · rw [(here.leaf leaf name own).1]
        rfl
      · obtain ⟨pair, _, value⟩ := here.inner leaf name own
        rw [value.dim_offset_]
        rfl
    · rw [same.dim_offset_ name own]
      exact carries ptr name
  · have unchanged : s'.dim_offset_ ptr = s.dim_offset_ ptr :=
      congrArg Prod.fst (same.others ptr at_node)
    rw [unchanged]
    exact carries ptr name

theorem dims_of_missing (missing : ev.root_.get? node = none) : ev.dims node = [] := by
  rw [Evaluator.dims, Evaluator.loopnests_, Evaluator.ori_node_, missing]
  rfl

theorem initOffsets_carries (own : OwnDims ev s.toEvaOffsets)
    (run : (Rose.preorder [] ev.root_).foldlM
      (fun s ptr => initOffset ev (ev.ori_node_ ptr) ptr s) s = .ok s') :
    Carries ev s'.toEvaOffsets := by
  intro node name
  have value : s'.dim_offset_ node name =
      if node ∈ Rose.preorder [] ev.root_ ∧ name ∈ ev.dims node then some 1
      else s.dim_offset_ node name := by
    refine foldlM_induction run (fun done s' => s'.dim_offset_ node name =
      if node ∈ done ∧ name ∈ ev.dims node then some 1 else s.dim_offset_ node name) ?_ ?_
    · simp
    · intro done ptr rest mid after _ before step
      rw [initOffset_eq step, before]
      by_cases here : node = ptr
      · subst here
        by_cases member : name ∈ ev.dims node <;> simp [member]
      · simp [here]
  rw [value]
  constructor
  · intro some
    split at some
    · next member => exact member.2
    · exact own node name some
  · intro member
    have found : node ∈ Rose.preorder [] ev.root_ := by
      rw [Rose.mem_preorder]
      refine ⟨node, (List.append_nil node).symm, ?_⟩
      cases at_node : ev.root_.get? node with
      | none => rw [dims_of_missing at_node] at member; cases member
      | some sub => rfl
    rw [if_pos ⟨found, member⟩]
    rfl

theorem getOffsets_settled (carries : Carries ev s.toEvaOffsets)
    (run : (Rose.postorder [] ev.root_).foldlM
      (fun s ptr => getOffset ev (ev.ori_node_ ptr) ptr s) s = .ok s') :
    OffsetsInit ev s'.toEvaOffsets := by
  have both := foldlM_induction run (fun done s' =>
    Carries ev s'.toEvaOffsets ∧ ∀ node ∈ done, Settled ev s'.toEvaOffsets node)
      ⟨carries, by simp⟩ ?_
  · refine ⟨both.1, fun node found => both.2 node ?_⟩
    exact (Rose.mem_postorder [] ev.root_ node).mpr ⟨node, (List.append_nil node).symm, found⟩
  · rintro done ptr rest mid after split ⟨carries, settled⟩ step
    obtain ⟨same, here⟩ := getOffset_eq_ok step
    refine ⟨getOffset_carries carries step, fun node member => ?_⟩
    rcases List.mem_append.mp member with earlier | last
    · refine (settled node earlier).congr fun below under => same.others below ?_
      rintro rfl
      have order := Rose.postorder_pairwise [] ev.root_
      rw [split, List.pairwise_append] at order
      exact order.2.2 node earlier below List.mem_cons_self under
    · cases List.mem_singleton.mp last
      exact here

theorem initOpTensor_offsets {sub : Node} (step : initOpTensor ev sub node s = .ok s') :
    s'.toEvaOffsets = s.toEvaOffsets := by
  cases kind : ev.get_type node with
  | Op =>
    obtain ⟨workload, made⟩ := initOpTensor_op kind step
    exact made.offsets
  | Trans =>
    rw [initOpTensor_trans kind step]
  | Tile =>
    rw [initOpTensor_inner (by simp [kind]) (by simp [kind]) step]
  | Scope =>
    rw [initOpTensor_inner (by simp [kind]) (by simp [kind]) step]

theorem tensorPasses_offsets {s₂ s₃ s₄ : InitState}
    (third : (Rose.postorder [] ev.root_).foldlM
      (fun s ptr => initOpTensor ev (ev.ori_node_ ptr) ptr s) s₂ = .ok s₃)
    (fourth : (Rose.postorder [] ev.root_).foldlM
      (fun s ptr => initTensor ev (ev.ori_node_ ptr) ptr s) s₃ = .ok s₄) :
    s₄.toEvaOffsets = s₂.toEvaOffsets := by
  refine (tagged fourth).offsets.trans ?_
  refine foldlM_induction third (fun _ s => s.toEvaOffsets = s₂.toEvaOffsets) rfl ?_
  exact fun done ptr rest mid after _ before step => (initOpTensor_offsets step).trans before

theorem run_offsets {tree tree' : EvaTree} {leaf_vec_ : List NodePtr}
    (own : OwnDims ev tree.toEvaOffsets)
    (run : InitAnalysis.run ev tree = .ok (tree', leaf_vec_)) :
    OffsetsInit ev tree'.toEvaOffsets := by
  obtain ⟨s₁, s₂, s₃, s₄, first, second, third, fourth, rfl, -⟩ := run_eq_ok run
  have offsets := getOffsets_settled (initOffsets_carries (s := initial tree) own first) second
  change OffsetsInit ev s₄.toEvaOffsets
  rw [tensorPasses_offsets third fourth]
  exact offsets

end InitAnalysis

end TileExp.Analysis
