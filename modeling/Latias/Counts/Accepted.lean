import Latias.Counts.LoopCount
import Latias.Tensors.Outputs
import Latias.Visits.PathNest

/-! What a mapping tree satisfies once `GetLoopCount` has accepted it. -/

namespace TileExp.Analysis

open Checked

/-- The loops that count for an Op: those of the Tiles above it and its own. -/
def Evaluator.opNests (ev : Evaluator) (op : NodePtr) : List (List Descriptor) :=
  ev.tileNests op ++ [ev.loopnests_ op]

structure Evaluator.Accepted (ev : Evaluator) : Prop where
  root : ev.get_type [] = .Tile
  leaves : ev.LeafOps
  inner : ∀ node ∈ Rose.postorder [] ev.root_,
    ev.get_type node = .Tile ∨ ev.get_type node = .Scope → (ev.ori_node_ node).children ≠ []
  bounded : ∀ op, ev.IsOp op → ∀ dim_name ∈ (ev.opNests op).flatten.map Descriptor.name_,
    ev.workloads_.factorized_bound dim_name =
      GetLoopCount.dimCount (ofDim dim_name (ev.opNests op).flatten)

namespace GetLoopCount

variable {ev : Evaluator} {node ptr : NodePtr} {s s' : Inherit}

def handedDown (ev : Evaluator) (node : NodePtr) : List (List Descriptor) :=
  match ev.get_type node with
  | .Tile => ev.tileNests node ++ [ev.loopnests_ node]
  | .Op => ev.opNests node
  | _ => ev.tileNests node

structure NodeAccepted (ev : Evaluator) (node : NodePtr) : Prop where
  root : node = [] → ev.get_type node = .Tile
  leaves : ev.get_type node = .Op ∨ ev.get_type node = .Trans →
    (ev.ori_node_ node).children.length = 0
  inner : ev.get_type node = .Tile ∨ ev.get_type node = .Scope → (ev.ori_node_ node).children ≠ []
  bounded : ev.get_type node = .Op → ∀ dim_name ∈ (ev.opNests node).flatten.map Descriptor.name_,
    ev.workloads_.factorized_bound dim_name =
      dimCount (ofDim dim_name (ev.opNests node).flatten)

theorem tileNests_child (ev : Evaluator) (node : NodePtr) (i : Nat)
    (inner : ev.get_type node ≠ .Op) : ev.tileNests (i :: node) = handedDown ev node := by
  rw [handedDown, Evaluator.tileNests]
  cases kind : ev.get_type node with
  | Tile => simp
  | Op => exact absurd kind inner
  | Scope => simp
  | Trans => simp

theorem visit_eq_ok (fresh : s node = [])
    (above : ∀ i parent, node = i :: parent → s parent = ev.tileNests node)
    (step : visit ev (ev.ori_node_ node) node s = .ok s') :
    NodeAccepted ev node ∧ s' = Function.update s node (handedDown ev node) := by
  have kind_eq : (ev.ori_node_ node).get_type = ev.get_type node := rfl
  unfold visit at step
  rw [kind_eq] at step
  cases kind : ev.get_type node with
  | Tile =>
    simp only [kind, visitTile] at step
    obtain ⟨_, checked, result⟩ := bind_eq_ok.mp step
    have children := tileexpAssert_eq_ok.mp checked
    refine ⟨⟨fun _ => kind, ?_, ?_, ?_⟩, ?_⟩
    · simp [kind]
    · exact fun _ => List.ne_nil_of_length_pos children
    · simp [kind]
    · cases result
      cases node with
      | nil => simp [get_parent, add_inherit_loopnest, fresh, handedDown, kind, Evaluator.tileNests,
          Evaluator.loopnests_]
      | cons i parent =>
        simp [get_parent, add_inherit_loopnest, fresh, handedDown, kind, above i parent rfl,
          Evaluator.loopnests_]
  | Scope =>
    simp only [kind, visitScope] at step
    obtain ⟨loops, read, step⟩ := bind_eq_ok.mp step
    obtain ⟨_, checked, result⟩ := bind_eq_ok.mp step
    have children := tileexpAssert_eq_ok.mp checked
    cases node with
    | nil => cases read
    | cons i parent =>
      cases read
      cases result
      refine ⟨⟨by simp, by simp [kind], fun _ => List.ne_nil_of_length_pos children,
        by simp [kind]⟩, ?_⟩
      simp [add_inherit_loopnest, fresh, handedDown, kind, above i parent rfl]
  | Trans =>
    simp only [kind, visitTrans] at step
    obtain ⟨_, checked, step⟩ := bind_eq_ok.mp step
    obtain ⟨loops, read, result⟩ := bind_eq_ok.mp step
    have children := tileexpAssert_eq_ok.mp checked
    cases node with
    | nil => cases read
    | cons i parent =>
      cases read
      cases result
      refine ⟨⟨by simp, fun _ => children, by simp [kind], by simp [kind]⟩, ?_⟩
      simp [add_inherit_loopnest, fresh, handedDown, kind, above i parent rfl]
  | Op =>
    simp only [kind, visitOp] at step
    obtain ⟨loops, read, step⟩ := bind_eq_ok.mp step
    obtain ⟨_, checked, step⟩ := bind_eq_ok.mp step
    obtain ⟨table, counted, step⟩ := bind_eq_ok.mp step
    obtain ⟨_, compared, result⟩ := bind_eq_ok.mp step
    have children := tileexpAssert_eq_ok.mp checked
    cases node with
    | nil => cases read
    | cons i parent =>
      cases read
      cases result
      have nests : ((s (i :: parent) ++ s parent) ++ [(ev.ori_node_ (i :: parent)).loopnests_]) =
          ev.opNests (i :: parent) := by
        rw [fresh, above i parent rfl]
        rfl
      simp only [add_inherit_loopnest, Function.update_self, Function.update_idem, nests] at counted ⊢
      refine ⟨⟨by simp, fun _ => children, by simp [kind], fun _ dim_name present => ?_⟩, ?_⟩
      · apply checkBounds_iff.mp compared
        rw [lookup_get_loop_count counted, if_pos present]
      · simp [handedDown, kind]

structure Passed (ev : Evaluator) (done : List NodePtr) (s : Inherit) : Prop where
  accepted : ∀ node ∈ done, NodeAccepted ev node
  loopnests : ∀ node, s node = if node ∈ done then handedDown ev node else []

theorem isSome_get?_of_mem {node : NodePtr} (member : node ∈ Rose.preorder [] ev.root_) :
    (ev.root_.get? node).isSome := by
  obtain ⟨r, rfl, found⟩ := (Rose.mem_preorder [] ev.root_ node).mp member
  rwa [List.append_nil]

theorem mem_preorder_of_isSome (found : (ev.root_.get? node).isSome) :
    node ∈ Rose.preorder [] ev.root_ :=
  (Rose.mem_preorder [] ev.root_ node).mpr ⟨node, (List.append_nil node).symm, found⟩

theorem Passed.fresh_above {done rest : List NodePtr}
    (split : Rose.preorder [] ev.root_ = done ++ node :: rest) (before : Passed ev done s) :
    s node = [] ∧ ∀ i parent, node = i :: parent → s parent = ev.tileNests node := by
  have order := Rose.preorder_pairwise [] ev.root_
  rw [split, List.pairwise_append] at order
  obtain ⟨_, later, earlier⟩ := order
  have absent : node ∉ done := fun member =>
    earlier node member node List.mem_cons_self List.suffix_rfl
  refine ⟨by rw [before.loopnests, if_neg absent], ?_⟩
  rintro i parent rfl
  have found := isSome_get?_of_mem (split ▸ List.mem_append_right done List.mem_cons_self)
  have member := mem_preorder_of_isSome (Evaluator.isSome_get?_parent found)
  rw [split, List.mem_append, List.mem_cons] at member
  have done_parent : parent ∈ done := by
    rcases member with member | same | member
    · exact member
    · exact absurd same.symm (List.cons_ne_self i parent)
    · exact absurd (List.suffix_cons i parent)
        ((List.pairwise_cons.mp later).1 parent member)
  rw [before.loopnests, if_pos done_parent, tileNests_child]
  intro op
  have none := (before.accepted parent done_parent).leaves (Or.inl op)
  obtain ⟨sub, found⟩ := Option.isSome_iff_exists.mp found
  have child := Evaluator.child_of_get? found
  rw [Evaluator.child, none, if_neg (Nat.not_lt_zero i)] at child
  cases child

theorem Passed.step {done rest : List NodePtr}
    (split : Rose.preorder [] ev.root_ = done ++ node :: rest) (before : Passed ev done s)
    (step : visit ev (ev.ori_node_ node) node s = .ok s') : Passed ev (done ++ [node]) s' := by
  obtain ⟨fresh, above⟩ := before.fresh_above split
  obtain ⟨accepted, rfl⟩ := visit_eq_ok fresh above step
  constructor
  · intro ptr member
    rcases List.mem_append.mp member with member | last
    · exact before.accepted ptr member
    · cases List.mem_singleton.mp last
      exact accepted
  · intro ptr
    rcases eq_or_ne ptr node with rfl | apart
    · simp
    · simp [apart, before.loopnests]

theorem run_eq_ok {tree tree' : EvaTree} (fresh : ∀ node, tree.inherit_loopnests_ node = [])
    (run : GetLoopCount.run ev tree = .ok tree') :
    Passed ev (Rose.preorder [] ev.root_) tree'.inherit_loopnests_ ∧
      tree' = { tree with inherit_loopnests_ := tree'.inherit_loopnests_ } := by
  obtain ⟨⟨cursor, s⟩, passed, result⟩ := bind_eq_ok.mp run
  cases result
  rw [traverse_before ev (visit ev) [] ev.root_ rfl] at passed
  obtain ⟨s', passed, result⟩ := bind_eq_ok.mp passed
  cases result
  refine ⟨?_, rfl⟩
  refine foldlM_induction passed (fun done s => Passed ev done s) ?_ ?_
  · exact ⟨by simp, by simpa using fresh⟩
  · exact fun done node rest s s' split before step => before.step split step

theorem run_accepted {tree tree' : EvaTree} (fresh : ∀ node, tree.inherit_loopnests_ node = [])
    (run : GetLoopCount.run ev tree = .ok tree') : ev.Accepted := by
  have accepted := (run_eq_ok fresh run).1.accepted
  have visited : ∀ node ∈ Rose.postorder [] ev.root_, NodeAccepted ev node := fun node member =>
    accepted node ((Rose.preorder_perm [] ev.root_).mem_iff.mpr member)
  refine ⟨?_, fun node member => (visited node member).leaves,
    fun node member => (visited node member).inner, ?_⟩
  · exact (accepted [] (mem_preorder_of_isSome rfl)).root rfl
  · intro op op_node
    exact (accepted op (mem_preorder_of_isSome op_node.1)).bounded op_node.2

end GetLoopCount

end TileExp.Analysis
