import Latias.Again.Reset

/-! `GetLoopCount` on a tree that keeps loops from an earlier pass. -/

namespace TileExp.Analysis

open Checked

def Evaluator.ownNests (ev : Evaluator) (node : NodePtr) : List (List Descriptor) :=
  match ev.get_type node with
  | .Tile => [ev.loopnests_ node]
  | .Op => [ev.loopnests_ node]
  | _ => []

namespace GetLoopCount

variable {ev : Evaluator} {kept : Inherit} {node : NodePtr} {nests : List (List Descriptor)}

/-- The loops on a node after a pass over a tree that had `kept` on its nodes. -/
def collected (ev : Evaluator) (kept : Inherit) : NodePtr → List (List Descriptor)
  | [] => kept [] ++ ev.ownNests []
  | i :: parent => kept (i :: parent) ++ collected ev kept parent ++ ev.ownNests (i :: parent)

def countCheck (ev : Evaluator) (node : NodePtr) (nests : List (List Descriptor)) : Exec Unit :=
  if ev.get_type node = .Op then do
    let mapping_loop_results ← get_loop_count nests
    checkBounds ev.workloads_ (ev.ori_node_ node).get_name mapping_loop_results
  else .ok ()

def passed (ev : Evaluator) (kept : Inherit) (done : List NodePtr) : Inherit := fun node =>
  if node ∈ done then collected ev kept node else kept node

theorem passed_snoc (done : List NodePtr) (node : NodePtr) :
    Function.update (passed ev kept done) node (collected ev kept node) =
      passed ev kept (done ++ [node]) := by
  funext ptr
  by_cases here : ptr = node
  · subst here
    simp [passed]
  · simp [passed, here]

theorem handedDown_eq (ev : Evaluator) (node : NodePtr) :
    handedDown ev node = ev.tileNests node ++ ev.ownNests node := by
  rw [handedDown, Evaluator.ownNests]
  cases ev.get_type node with
  | Tile => rfl
  | Op => rfl
  | Scope => exact (List.append_nil _).symm
  | Trans => exact (List.append_nil _).symm

theorem visit_passed (accepted : ev.Accepted) (found : (ev.root_.get? node).isSome)
    {done : List NodePtr} (fresh : node ∉ done) (above : ∀ i parent, node = i :: parent → parent ∈ done) :
    visit ev (ev.ori_node_ node) node (passed ev kept done) = (do
      countCheck ev node (collected ev kept node)
      .ok (passed ev kept (done ++ [node]))) := by
  have kind_eq : (ev.ori_node_ node).get_type = ev.get_type node := rfl
  have member := InitAnalysis.mem_positions.mpr found
  have leaf := accepted.leaves node member
  have inner := accepted.inner node member
  have here : passed ev kept done node = kept node := if_neg fresh
  rw [visit, kind_eq, ← passed_snoc, countCheck]
  cases node with
  | nil =>
    have root := accepted.root
    have children := List.length_pos_of_ne_nil (inner (Or.inl root))
    simp only [root, visitTile, get_parent, add_inherit_loopnest, here, tileexpAssert,
      gt_iff_lt, children, if_true, collected, Evaluator.ownNests]
    rfl
  | cons i parent =>
    have up : passed ev kept done parent = collected ev kept parent := if_pos (above i parent rfl)
    cases kind : ev.get_type (i :: parent) with
    | Tile =>
      have children := List.length_pos_of_ne_nil (inner (Or.inl kind))
      simp only [visitTile, get_parent, add_inherit_loopnest, here, up, tileexpAssert, gt_iff_lt,
        children, if_true, collected, Evaluator.ownNests, kind, Function.update_self,
        Function.update_idem]
      rfl
    | Scope =>
      have children := List.length_pos_of_ne_nil (inner (Or.inr kind))
      simp only [visitScope, parentLoopnests, get_parent, add_inherit_loopnest, here, up,
        tileexpAssert, gt_iff_lt, children, if_true, collected, Evaluator.ownNests, kind,
        List.append_nil]
      rfl
    | Trans =>
      have children := leaf (Or.inr kind)
      simp only [visitTrans, parentLoopnests, get_parent, add_inherit_loopnest, here, up,
        tileexpAssert, children, if_true, collected, Evaluator.ownNests, kind, List.append_nil]
      rfl
    | Op =>
      have children := leaf (Or.inl kind)
      simp only [visitOp, parentLoopnests, get_parent, add_inherit_loopnest, here, up,
        tileexpAssert, children, if_true, collected, Evaluator.ownNests, kind, ok_bind,
        Function.update_self, Function.update_idem, bind_assoc]
      rfl

theorem foldlM_passed (accepted : ev.Accepted) (rest : List NodePtr) :
    ∀ done, Rose.preorder [] ev.root_ = done ++ rest →
      rest.foldlM (fun s ptr => visit ev (ev.ori_node_ ptr) ptr s) (passed ev kept done) = (do
        rest.forM fun ptr => countCheck ev ptr (collected ev kept ptr)
        .ok (passed ev kept (done ++ rest))) := by
  induction rest with
  | nil => exact fun done _ => by rw [List.append_nil]; rfl
  | cons node rest ih =>
    intro done split
    have order := Rose.preorder_pairwise [] ev.root_
    rw [split, List.pairwise_append] at order
    have fresh : node ∉ done := fun member =>
      order.2.2 node member node List.mem_cons_self List.suffix_rfl
    have found := isSome_get?_of_mem (split ▸ List.mem_append_right done List.mem_cons_self)
    have above : ∀ i parent, node = i :: parent → parent ∈ done := by
      rintro i parent rfl
      have member := mem_preorder_of_isSome (Evaluator.isSome_get?_parent found)
      rw [split, List.mem_append, List.mem_cons] at member
      rcases member with member | same | later
      · exact member
      · exact absurd same.symm (List.cons_ne_self i parent)
      · exact absurd (List.suffix_cons i parent)
          ((List.pairwise_cons.mp order.2.1).1 parent later)
    have checks : ((node :: rest).forM fun ptr => countCheck ev ptr (collected ev kept ptr)) = (do
        countCheck ev node (collected ev kept node)
        rest.forM fun ptr => countCheck ev ptr (collected ev kept ptr)) := rfl
    rw [List.foldlM_cons, visit_passed accepted found fresh above, checks, bind_assoc, bind_assoc]
    refine bind_congr fun _ => ?_
    rw [ok_bind, ih (done ++ [node]) (by rw [split, List.append_assoc]; rfl), List.append_assoc]
    rfl

theorem run_collected (accepted : ev.Accepted) (tree : EvaTree) :
    GetLoopCount.run ev tree = (do
      (Rose.preorder [] ev.root_).forM fun ptr =>
        countCheck ev ptr (collected ev tree.inherit_loopnests_ ptr)
      .ok { tree with
        inherit_loopnests_ := passed ev tree.inherit_loopnests_ (Rose.preorder [] ev.root_) }) := by
  have start : passed ev tree.inherit_loopnests_ [] = tree.inherit_loopnests_ := by
    funext node
    exact if_neg List.not_mem_nil
  rw [GetLoopCount.run, traverse_before ev (visit ev) [] ev.root_ rfl]
  nth_rewrite 1 [← start]
  rw [foldlM_passed accepted _ [] (List.nil_append _).symm]
  simp only [bind_assoc, ok_bind, List.nil_append]

theorem run_collected_iff (accepted : ev.Accepted) {tree tree' : EvaTree} :
    GetLoopCount.run ev tree = .ok tree' ↔
      (∀ node ∈ Rose.preorder [] ev.root_,
        countCheck ev node (collected ev tree.inherit_loopnests_ node) = .ok ()) ∧
      tree' = { tree with
        inherit_loopnests_ := passed ev tree.inherit_loopnests_ (Rose.preorder [] ev.root_) } := by
  rw [run_collected accepted, check_bind_eq_ok, ← forM_eq_ok, Except.ok.injEq, eq_comm (a := tree')]

/-! What the check of an Op says of the loops it collected. -/

theorem countCheck_bounds (op : ev.get_type node = .Op) (check : countCheck ev node nests = .ok ())
    {dim_name : String} (present : dim_name ∈ nests.flatten.map Descriptor.name_) :
    ev.workloads_.factorized_bound dim_name = dimCount (ofDim dim_name nests.flatten) := by
  rw [countCheck, if_pos op] at check
  obtain ⟨table, counted, compared⟩ := bind_eq_ok.mp check
  apply checkBounds_iff.mp compared
  rw [lookup_get_loop_count counted, if_pos present]

theorem countCheck_of_bounds (bounded : ∀ loop ∈ nests.flatten, loop.residual_end ≤ loop.end_)
    (counts : ∀ dim_name ∈ nests.flatten.map Descriptor.name_,
      ev.workloads_.factorized_bound dim_name = dimCount (ofDim dim_name nests.flatten)) :
    countCheck ev node nests = .ok () := by
  rw [countCheck]
  split
  · obtain ⟨table, counted⟩ := get_loop_count_total bounded
    rw [counted, ok_bind, checkBounds_iff]
    intro dim_name count found
    rw [lookup_get_loop_count counted] at found
    split at found
    · next present => exact (counts dim_name present).trans (Option.some_inj.mp found)
    · cases found
  · rfl

theorem residual_le_of_countCheck (op : ev.get_type node = .Op)
    (check : countCheck ev node nests = .ok ()) {before after : List Descriptor} {loop : Descriptor}
    (split : nests.flatten = before ++ loop :: after)
    (earlier : loop.name_ ∈ before.map Descriptor.name_) : loop.residual_end ≤ loop.end_ := by
  rw [countCheck, if_pos op] at check
  obtain ⟨table, counted, _⟩ := bind_eq_ok.mp check
  obtain ⟨ends, pushed, _⟩ := bind_eq_ok.mp counted
  rw [split, List.foldlM_append] at pushed
  obtain ⟨middle, first, rest⟩ := bind_eq_ok.mp pushed
  obtain ⟨next, step, _⟩ := bind_eq_ok.mp rest
  have collected := foldlM_induction first Collected Collected.nil
    fun done loop rest s s' _ before step => before.snoc step
  unfold pushDim at step
  rw [collected.dim_ends, if_pos earlier] at step
  obtain ⟨_, bounded, _⟩ := bind_eq_ok.mp step
  exact tileexpAssert_eq_ok.mp bounded

/-! Counts of loops that run at least once. -/

theorem dimCount_of_units {loops : List Descriptor}
    (units : ∀ loop ∈ loops, loop.residual_end = 1) : dimCount loops = 1 := by
  induction loops with
  | nil => rfl
  | cons loop loops ih =>
    obtain ⟨here, rest⟩ := List.forall_mem_cons.mp units
    rw [dimCount_cons, here, ih rest]
    simp

theorem units_of_dimCount {loops : List Descriptor} (runs : Runs loops)
    (single : dimCount loops = 1) : ∀ loop ∈ loops, loop.residual_end = 1 := by
  induction loops with
  | nil => exact fun _ member => absurd member List.not_mem_nil
  | cons loop loops ih =>
    obtain ⟨here, rest⟩ := List.forall_mem_cons.mp runs
    have ends := prod_ends_pos rest
    have tail := dimCount_pos rest
    have product : (loop.residual_end - 1) * 1 ≤
        (loop.residual_end - 1) * (loops.map Descriptor.end_).prod :=
      Int.mul_le_mul_of_nonneg_left ends (by omega)
    rw [dimCount_cons] at single
    exact List.forall_mem_cons.mpr ⟨by omega, ih rest (by omega)⟩

theorem units_of_recount {a b : List Descriptor} (runs : Runs a) (between : Runs b)
    (same : dimCount (a ++ (b ++ a)) = dimCount a) : ∀ loop ∈ a, loop.residual_end = 1 := by
  have positive := dimCount_pos runs
  have middle := dimCount_pos between
  have ends := prod_ends_pos runs
  have all : 1 ≤ ((b ++ a).map Descriptor.end_).prod := by
    rw [List.map_append, List.prod_append]
    exact Int.mul_le_mul (prod_ends_pos between) ends (by omega)
      (Int.le_trans (by omega) (prod_ends_pos between))
  have first : (dimCount a - 1) * 1 ≤ (dimCount a - 1) * ((b ++ a).map Descriptor.end_).prod :=
    Int.mul_le_mul_of_nonneg_left all (by omega)
  have second : 0 ≤ (dimCount b - 1) * (a.map Descriptor.end_).prod :=
    Int.mul_nonneg (by omega) (by omega)
  rw [dimCount_append, dimCount_append] at same
  exact units_of_dimCount runs (by omega)

/-! A second pass: the nodes that `Evaluator::reset` does not reach keep their loops. -/

theorem tileNests_of_found (accepted : ev.Accepted) {i : Nat}
    (found : (ev.root_.get? (i :: node)).isSome) :
    ev.tileNests (i :: node) = handedDown ev node := by
  apply tileNests_child
  intro op
  have inner := InitAnalysis.not_isLeaf_of_ancestor accepted.leaves found List.mem_cons_self
  simp [InitAnalysis.isLeaf, op] at inner

theorem handedDown_suffix (accepted : ev.Accepted) (kept : Inherit) (node : NodePtr)
    (found : (ev.root_.get? node).isSome) : handedDown ev node <:+ collected ev kept node := by
  induction node with
  | nil =>
    rw [handedDown_eq, collected]
    exact List.suffix_append (kept []) _
  | cons i parent ih =>
    obtain ⟨extra, above⟩ := ih (Evaluator.isSome_get?_parent found)
    rw [handedDown_eq, tileNests_of_found accepted found, collected, ← above]
    exact ⟨kept (i :: parent) ++ extra, by simp only [List.append_assoc]⟩

/-- The loops of the nodes before a second pass. -/
def Rekept (ev : Evaluator) (kept : Inherit) : Prop :=
  ∀ node, (ev.root_.get? node).isSome →
    kept node = if node ∈ ev.resetNodes then [] else handedDown ev node

theorem mem_handedDown_of_collected (accepted : ev.Accepted) (rekept : Rekept ev kept)
    (node : NodePtr) (found : (ev.root_.get? node).isSome) {nest : List Descriptor}
    (member : nest ∈ collected ev kept node) : nest ∈ handedDown ev node := by
  have kept_subset {ptr : NodePtr} (found : (ev.root_.get? ptr).isSome) {nest : List Descriptor}
      (member : nest ∈ kept ptr) : nest ∈ handedDown ev ptr := by
    rw [rekept ptr found] at member
    split at member
    · cases member
    · exact member
  induction node with
  | nil =>
    rw [collected, List.mem_append] at member
    rcases member with before | own
    · exact kept_subset found before
    · rw [handedDown_eq]
      exact List.mem_append_right _ own
  | cons i parent ih =>
    have up := Evaluator.isSome_get?_parent found
    rw [collected, List.mem_append, List.mem_append] at member
    rcases member with (before | above) | own
    · exact kept_subset found before
    · rw [handedDown_eq, tileNests_of_found accepted found]
      exact List.mem_append_left _ (ih up above)
    · rw [handedDown_eq]
      exact List.mem_append_right _ own

theorem collected_split (accepted : ev.Accepted) (rekept : Rekept ev kept) {i : Nat}
    (found : (ev.root_.get? (i :: node)).isSome) (deep : i :: node ∉ ev.resetNodes) :
    ∃ between, collected ev kept (i :: node) =
      handedDown ev (i :: node) ++ (between ++ handedDown ev (i :: node)) := by
  obtain ⟨between, above⟩ := handedDown_suffix accepted kept node (Evaluator.isSome_get?_parent found)
  have whole : handedDown ev (i :: node) = handedDown ev node ++ ev.ownNests (i :: node) := by
    rw [handedDown_eq, tileNests_of_found accepted found]
  refine ⟨between, ?_⟩
  rw [collected, rekept _ found, if_neg deep, ← above]
  simp only [whole, List.append_assoc]

end GetLoopCount

/-- The loops over an Op two levels or more below the root run once, the last time. -/
def Evaluator.UnitTails (ev : Evaluator) : Prop :=
  ∀ op ∈ Rose.postorder [] ev.root_, ev.get_type op = .Op → 2 ≤ op.length →
    ∀ loop ∈ (ev.opNests op).flatten, loop.residual_end = 1 ∧ 1 ≤ loop.end_

instance (ev : Evaluator) : Decidable ev.UnitTails :=
  inferInstanceAs (Decidable (∀ op ∈ Rose.postorder [] ev.root_, _))

def Evaluator.PositiveTails (ev : Evaluator) : Prop :=
  ∀ node ∈ Rose.postorder [] ev.root_, ∀ loop ∈ ev.loopnests_ node, 1 ≤ loop.residual_end

instance (ev : Evaluator) : Decidable ev.PositiveTails :=
  inferInstanceAs (Decidable (∀ node ∈ Rose.postorder [] ev.root_, _))

namespace GetLoopCount

variable {ev : Evaluator} {kept : Inherit} {node op : NodePtr}

theorem positive_of_mem_opNests (positive : ev.PositiveTails) (accepted : ev.Accepted) (node : NodePtr)
    (found : (ev.root_.get? node).isSome) {loop : Descriptor}
    (member : loop ∈ (handedDown ev node).flatten) : 1 ≤ loop.residual_end := by
  have own {ptr : NodePtr} (here : (ev.root_.get? ptr).isSome)
      (member : loop ∈ (ev.ownNests ptr).flatten) : 1 ≤ loop.residual_end := by
    apply positive ptr (InitAnalysis.mem_positions.mpr here)
    rw [Evaluator.ownNests] at member
    cases kind : ev.get_type ptr with
    | Tile => simpa [kind] using member
    | Op => simpa [kind] using member
    | Scope => simp [kind] at member
    | Trans => simp [kind] at member
  induction node with
  | nil =>
    rw [handedDown_eq, List.flatten_append, List.mem_append] at member
    rcases member with above | here
    · cases above
    · exact own found here
  | cons i parent ih =>
    rw [handedDown_eq, List.flatten_append, List.mem_append, tileNests_of_found accepted found]
      at member
    rcases member with above | here
    · exact ih (Evaluator.isSome_get?_parent found) above
    · exact own found here

/-- A second pass accepts the loops of an Op that was not reset only if they run once. -/
theorem units_of_countCheck (accepted : ev.Accepted) (positive : ev.PositiveTails)
    (rekept : Rekept ev kept) (is_op : ev.IsOp op) (deep : 2 ≤ op.length)
    (check : countCheck ev op (collected ev kept op) = .ok ()) :
    ∀ loop ∈ (ev.opNests op).flatten, loop.residual_end = 1 ∧ 1 ≤ loop.end_ := by
  have nests : handedDown ev op = ev.opNests op := by
    rw [handedDown, is_op.2]
  obtain ⟨between, split⟩ : ∃ between, collected ev kept op =
      ev.opNests op ++ (between ++ ev.opNests op) := by
    cases op with
    | nil => simp at deep
    | cons i parent =>
      have outside : i :: parent ∉ ev.resetNodes := by
        rw [mem_resetNodes is_op.1]
        omega
      rw [← nests]
      exact collected_split accepted rekept is_op.1 outside
  have inside {loop : Descriptor} (member : loop ∈ (collected ev kept op).flatten) :
      loop ∈ (ev.opNests op).flatten := by
    obtain ⟨nest, present, here⟩ := List.mem_flatten.mp member
    rw [← nests]
    exact List.mem_flatten_of_mem (mem_handedDown_of_collected accepted rekept op is_op.1 present) here
  have bounded : ∀ loop ∈ (ev.opNests op).flatten, loop.residual_end ≤ loop.end_ := by
    intro loop member
    obtain ⟨before, after, last⟩ := List.append_of_mem member
    have whole : (collected ev kept op).flatten = ((ev.opNests op).flatten ++ (between.flatten ++
        before)) ++ loop :: after := by
      rw [split, List.flatten_append, List.flatten_append, List.append_assoc, List.append_assoc,
        ← last]
    refine residual_le_of_countCheck is_op.2 check whole ?_
    exact List.mem_map_of_mem (List.mem_append_left _ member)
  have runs : Runs (ev.opNests op).flatten := by
    intro loop member
    have last := positive_of_mem_opNests positive accepted op is_op.1 (nests ▸ member)
    have bound := bounded loop member
    exact ⟨last, by omega⟩
  intro loop member
  refine ⟨?_, (runs loop member).2⟩
  have present : loop.name_ ∈ (ev.opNests op).flatten.map Descriptor.name_ :=
    List.mem_map_of_mem member
  have again : loop.name_ ∈ (collected ev kept op).flatten.map Descriptor.name_ := by
    rw [split, List.flatten_append, List.map_append]
    exact List.mem_append_left _ present
  have counts := (accepted.bounded op is_op loop.name_ present).symm.trans
    (countCheck_bounds is_op.2 check again)
  rw [split, List.flatten_append, List.flatten_append, ofDim_append, ofDim_append] at counts
  refine units_of_recount (fun l inner => runs l (List.mem_of_mem_filter inner)) (fun l inner => ?_)
    counts.symm loop (by simp [List.mem_filter, List.mem_flatten.mp member])
  apply runs l
  apply inside
  rw [split, List.flatten_append, List.flatten_append]
  exact List.mem_append_right _ (List.mem_append_left _ (List.mem_of_mem_filter inner))

theorem countCheck_of_units (accepted : ev.Accepted) (units : ev.UnitTails) (rekept : Rekept ev kept)
    (found : (ev.root_.get? node).isSome)
    (first : countCheck ev node (collected ev (fun _ => []) node) = .ok ()) :
    countCheck ev node (collected ev kept node) = .ok () := by
  by_cases deep : 2 ≤ node.length
  · by_cases op : ev.get_type node = .Op
    · have nests : handedDown ev node = ev.opNests node := by
        rw [handedDown, op]
      have path := units node (InitAnalysis.mem_positions.mpr found) op deep
      have inside {loop : Descriptor} (member : loop ∈ (collected ev kept node).flatten) :
          loop ∈ (ev.opNests node).flatten := by
        obtain ⟨nest, present, here⟩ := List.mem_flatten.mp member
        rw [← nests]
        exact List.mem_flatten_of_mem
          (mem_handedDown_of_collected accepted rekept node found present) here
      refine countCheck_of_bounds (fun loop member => ?_) (fun dim_name present => ?_)
      · have unit := path loop (inside member)
        omega
      · obtain ⟨loop, member, name⟩ := List.mem_map.mp present
        have own : dim_name ∈ (ev.opNests node).flatten.map Descriptor.name_ :=
          name ▸ List.mem_map_of_mem (inside member)
        have once : dimCount (ofDim dim_name (ev.opNests node).flatten) = 1 :=
          dimCount_of_units fun l inner => (path l (List.mem_of_mem_filter inner)).1
        have again : dimCount (ofDim dim_name (collected ev kept node).flatten) = 1 :=
          dimCount_of_units fun l inner => (path l (inside (List.mem_of_mem_filter inner))).1
        rw [accepted.bounded node ⟨found, op⟩ dim_name own, once, again]
    · rw [countCheck, if_neg op]
  · have cleared {ptr : NodePtr} (found : (ev.root_.get? ptr).isSome) (short : ptr.length ≤ 1) :
        kept ptr = [] := by
      rw [rekept ptr found, if_pos ((mem_resetNodes found).mpr short)]
    have same : collected ev kept node = collected ev (fun _ => []) node := by
      cases node with
      | nil => rw [collected, collected, cleared found (by simp)]
      | cons i ptr =>
        cases ptr with
        | nil =>
          rw [collected, collected, collected, collected, cleared found (by simp),
            cleared (Evaluator.isSome_get?_parent found) (by simp)]
        | cons j ptr => exact absurd (by simp) deep
    rw [same]
    exact first

end GetLoopCount

end TileExp.Analysis
