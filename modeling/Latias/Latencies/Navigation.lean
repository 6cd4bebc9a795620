import Latias.Latencies.Faults
import Latias.Latencies.InputLinks
import Latias.Visits.Evaluation

/-! The nodes that `PerfAnalysis` reads around the current one: the target and the source of a Tile,
    the leaf before a Trans and the child before a Trans. -/

namespace TileExp.Analysis

open Checked LoopNest

namespace Evaluator

def InnerTile (ev : Evaluator) (node : NodePtr) : Prop :=
  node ∈ Rose.postorder [] ev.root_ ∧ node ≠ [] ∧ ev.get_type node = .Tile ∧ ev.Reached node

/-- The node whose children `getInterConNode` indexes. -/
def linkHolder (ev : Evaluator) (node : NodePtr) : NodePtr :=
  if ev.get_type (0 :: node) = .Scope then 0 :: node else node

instance (ev : Evaluator) (node : NodePtr) : Decidable (ev.InnerTile node) :=
  inferInstanceAs (Decidable (_ ∧ _ ∧ _ ∧ _))

/-- Wherever a run is, the target and the source of the Tile are found, and a Trans has a leaf and a
    child before it to look at. -/
structure NavigatesInside (ev : Evaluator) (tree : EvaTree) (leaf_vec_ : List NodePtr) : Prop where
  targets : ∀ node, ev.InnerTile node → ∃ target, findTarget ev node = .ok target
  sources : ∀ node, ev.InnerTile node →
    ∃ source, findSource ev node (findCurrentNodePosition node) = .ok source
  former_leaves : ∀ node ∈ Rose.postorder [] ev.root_, ev.get_type node = .Trans → ev.Reached node →
    ∀ w t, w.current_node_ = node →
      PerfAnalysis.transTally (tree.context ev leaf_vec_) w t ≠ .error .outOfRange
  former_children : ∀ node ∈ Rose.postorder [] ev.root_, ev.get_type node = .Tile → ev.Reached node →
    ∀ idx < (ev.ori_node_ (ev.linkHolder node)).children.length,
      getInterConNode ev node idx ≠ .error .outOfRange

def nextSibling (ev : Evaluator) : NodePtr → Option NodePtr
  | [] => none
  | i :: parent => if (ev.root_.get? ((i + 1) :: parent)).isSome then some ((i + 1) :: parent) else none

def nextNode (ev : Evaluator) (node : NodePtr) : Option NodePtr :=
  (node :: Rose.ancestors node).findSome? ev.nextSibling

def opBeforeTrans (ev : Evaluator) : NodePtr → Bool
  | (i + 2) :: parent => (lastLeaf (ev.ori_node_ (i :: parent))).get_type = .Op
  | _ => false

/-- Behind a Forward Tile comes a Trans, before one that follows a Trans an Op, the leaves of the
    tree do not start with a Trans, and the children of a Tile or of its Scope do not either. -/
structure Navigable (ev : Evaluator) : Prop where
  targets : ∀ node ∈ Rose.postorder [] ev.root_, ev.InnerTile node →
    (ev.ori_node_ node).dataflow_mode_ = .Forward →
      (ev.nextNode node).map ev.get_type = some .Trans
  sources : ∀ node ∈ Rose.postorder [] ev.root_, ev.InnerTile node → ev.takesProducer node = true →
    ev.opBeforeTrans node = true
  first_leaf : ev.get_type (findFirstLeaf [] ev.root_) ≠ .Trans
  first_children : ∀ node ∈ Rose.postorder [] ev.root_, ev.get_type node = .Tile → ev.Reached node →
    ev.get_type (0 :: ev.linkHolder node) ≠ .Trans

end Evaluator

variable {ev : Evaluator} {ctx : PerfContext} {node ptr parent : NodePtr} {tree : EvaTree}
  {leaf_vec_ : List NodePtr}

/-! `findTarget`. -/

theorem nextNode_cons (i : Nat) (parent : NodePtr) : ev.nextNode (i :: parent) =
    if (ev.root_.get? ((i + 1) :: parent)).isSome then some ((i + 1) :: parent)
    else ev.nextNode parent := by
  rw [Evaluator.nextNode, Rose.ancestors, List.findSome?_cons, Evaluator.nextSibling]
  by_cases there : (ev.root_.get? ((i + 1) :: parent)).isSome
  · simp only [there, if_true]
  · simp only [there]
    rfl

theorem climbToTrans_eq (found : (ev.root_.get? node).isSome) :
    climbToTrans ev node =
      match ev.nextNode node with
      | none => .error .nullPointer
      | some target_node => (do
        tileexpAssert (ev.get_type target_node = .Trans) "findTarget fail"
        .ok (ev.target_level target_node, true)) := by
  induction node with
  | nil => rfl
  | cons i parent ih =>
    have above := Evaluator.isSome_get?_parent found
    obtain ⟨sub, at_parent⟩ := Option.isSome_iff_exists.mp above
    rw [Rose.get?_cons, at_parent, Option.bind_some] at found
    obtain ⟨c, child⟩ := Option.isSome_iff_exists.mp found
    have bound := (List.getElem?_eq_some_iff.mp child).1
    rw [climbToTrans, nextNode_cons, Evaluator.ori_node_of_get? at_parent]
    by_cases last : i + 1 = sub.children.length
    · have missing : ev.root_.get? ((i + 1) :: parent) = none := by
        rw [Rose.get?_cons, at_parent, Option.bind_some]
        exact List.getElem?_eq_none (by omega)
      rw [if_pos last, missing, ih above]
      rfl
    · obtain ⟨other, place⟩ : ∃ other, sub.children[i + 1]? = some other :=
        ⟨_, List.getElem?_eq_getElem (by omega)⟩
      have next := child_of_place at_parent place
      rw [if_neg last, Evaluator.child_of_get? next, next]
      rfl

theorem findTarget_iff (accepted : ev.Accepted) (inner : ev.InnerTile node) :
    (∃ target, findTarget ev node = .ok target) ↔
      ((ev.ori_node_ node).dataflow_mode_ = .Forward →
        (ev.nextNode node).map ev.get_type = some .Trans) := by
  have found := InitAnalysis.mem_positions.mp inner.1
  rw [findTarget]
  by_cases forward : (ev.ori_node_ node).dataflow_mode_ = .Forward
  · simp only [forward, if_true, true_implies, climbToTrans_eq found]
    cases ev.nextNode node with
    | none => simp
    | some target_node =>
      by_cases kind : ev.get_type target_node = .Trans
      · simp [tileexpAssert, kind]
      · simp [tileexpAssert, kind]
  · simp only [forward, if_false, false_implies, iff_true]
    rw [parentTileLevel_eq accepted.root inner.2.1]
    exact ⟨_, rfl⟩

/-! `findSource`. -/

theorem findSource_iff (accepted : ev.Accepted) (inner : ev.InnerTile node) :
    (∃ source, findSource ev node (findCurrentNodePosition node) = .ok source) ↔
      (ev.takesProducer node = true → ev.opBeforeTrans node = true) := by
  have found := InitAnalysis.mem_positions.mp inner.1
  by_cases takes : ev.takesProducer node = true
  · simp only [takes, true_implies]
    cases node with
    | nil => cases takes
    | cons position parent =>
      cases position with
      | zero => cases takes
      | succ i =>
        obtain ⟨forward, trans⟩ := of_decide_eq_true takes
        have many : (ev.ori_node_ parent).children.length ≠ 1 := by
          obtain ⟨sub, at_parent⟩ := Option.isSome_iff_exists.mp (Evaluator.isSome_get?_parent found)
          rw [Rose.get?_cons, at_parent, Option.bind_some] at found
          obtain ⟨c, child⟩ := Option.isSome_iff_exists.mp found
          have bound := (List.getElem?_eq_some_iff.mp child).1
          rw [Evaluator.ori_node_of_get? at_parent]
          omega
        have position : findCurrentNodePosition ((i + 1) :: parent) = i + 1 := rfl
        rw [position]
        unfold findSource
        simp only [forward, if_true, get_parent, many, Nat.succ_ne_zero, or_self, if_false,
          Nat.add_sub_cancel, child_before found, ok_bind, trans]
        cases i with
        | zero => simp [Evaluator.opBeforeTrans]
        | succ k =>
          have there : (ev.root_.get? ((k + 1) :: parent)).isSome :=
            (Evaluator.get?_of_child (child_before found) (Evaluator.isSome_get?_parent found)).2
          have before : k + 1 + 1 - 2 = k := by omega
          rw [if_neg (by omega), before, child_before there, ok_bind, Evaluator.opBeforeTrans]
          by_cases op : (lastLeaf (ev.ori_node_ (k :: parent))).get_type = .Op
          · simp [tileexpAssert, op]
          · simp [tileexpAssert, op]
  · simp only [takes]
    rw [findSource_tile accepted.root inner.2.1 found (Bool.eq_false_of_not_eq_true takes)]
    simp

/-! The leaf before a Trans. -/

theorem transTally_outOfRange_iff {w : Walk} {t : Tally} {first : NodePtr} {rest : List NodePtr}
    (leaves : ctx.leaf_vec_ = first :: rest) (member : w.current_node_ ∈ ctx.leaf_vec_) :
    PerfAnalysis.transTally ctx w t = .error .outOfRange ↔ w.current_node_ = first := by
  by_cases same : w.current_node_ = first
  · simp only [same, PerfAnalysis.transTally, leaves, List.idxOf_cons_self]
  · have later : ctx.leaf_vec_.idxOf w.current_node_ = rest.idxOf w.current_node_ + 1 := by
      rw [leaves, List.idxOf_cons_ne]
      exact Ne.symm same
    have bound := List.idxOf_lt_length_of_mem member
    obtain ⟨former, place⟩ : ∃ former, ctx.leaf_vec_[rest.idxOf w.current_node_]? = some former :=
      ⟨_, List.getElem?_eq_getElem (by omega)⟩
    simp only [same, iff_false, PerfAnalysis.transTally, later, place]
    split
    · unfold InterCon.bandwidth_ divide
      split
      · rw [ok_bind]
        split <;> simp
      · simp
    · simp

theorem reached_findFirstLeaf (ptr : NodePtr) (sub : Node) (reached : ev.Reached ptr) :
    ev.Reached (findFirstLeaf ptr sub) := by
  induction sub using Rose.children_induction generalizing ptr with
  | step info cs each =>
    cases cs with
    | nil => exact reached
    | cons c cs =>
      rw [findFirstLeaf]
      exact each c List.mem_cons_self (0 :: ptr) ⟨fun _ => rfl, reached⟩

theorem former_leaves_iff (prepared : ev.Prepared tree leaf_vec_) :
    (∀ node ∈ Rose.postorder [] ev.root_, ev.get_type node = .Trans → ev.Reached node →
      ∀ w t, w.current_node_ = node →
        PerfAnalysis.transTally (tree.context ev leaf_vec_) w t ≠ .error .outOfRange) ↔
      ev.get_type (findFirstLeaf [] ev.root_) ≠ .Trans := by
  obtain ⟨_, rest, start⟩ := InitAnalysis.leaves_start prepared.accepted [] ev.root_ rfl
  have leaves : (tree.context ev leaf_vec_).leaf_vec_ = findFirstLeaf [] ev.root_ :: rest :=
    prepared.leaves.trans start
  have leaf_of_trans {node : NodePtr} (inside : node ∈ Rose.postorder [] ev.root_)
      (trans : ev.get_type node = .Trans) : node ∈ leaf_vec_ := by
    rw [prepared.leaves]
    exact List.mem_filter.mpr ⟨inside, by simp [InitAnalysis.isLeaf, trans]⟩
  constructor
  · intro each trans
    have member : findFirstLeaf [] ev.root_ ∈
        (Rose.postorder [] ev.root_).filter (InitAnalysis.isLeaf ev) := by
      rw [start]
      exact List.mem_cons_self
    have reached : ev.Reached (findFirstLeaf [] ev.root_) := reached_findFirstLeaf [] ev.root_ trivial
    refine each _ (List.mem_filter.mp member).1 trans reached
      (walkAt (tree.context ev leaf_vec_) (findFirstLeaf [] ev.root_) [])
      (PerfAnalysis.initial tree).tally rfl ?_
    exact (transTally_outOfRange_iff leaves (prepared.leaves ▸ member)).mpr rfl
  · intro other node inside trans reached w t here
    have member : w.current_node_ ∈ (tree.context ev leaf_vec_).leaf_vec_ :=
      here ▸ leaf_of_trans inside trans
    rw [Ne, transTally_outOfRange_iff leaves member, here]
    intro same
    exact other (same ▸ trans)

/-! The child before a Trans. -/

theorem linkHolder_children (accepted : ev.Accepted) (inside : node ∈ Rose.postorder [] ev.root_)
    (tile : ev.get_type node = .Tile) :
    (ev.root_.get? (0 :: node)).isSome ∧ (ev.root_.get? (ev.linkHolder node)).isSome ∧
      (ev.ori_node_ (ev.linkHolder node)).children ≠ [] := by
  have first {ptr : NodePtr} (inside : ptr ∈ Rose.postorder [] ev.root_)
      (filled : (ev.ori_node_ ptr).children ≠ []) : (ev.root_.get? (0 :: ptr)).isSome := by
    obtain ⟨sub, found⟩ := Option.isSome_iff_exists.mp (InitAnalysis.mem_positions.mp inside)
    rw [Evaluator.ori_node_of_get? found] at filled
    obtain ⟨child, place⟩ : ∃ child, sub.children[0]? = some child :=
      ⟨_, List.getElem?_eq_getElem (List.length_pos_of_ne_nil filled)⟩
    exact Option.isSome_of_eq_some (child_of_place found place)
  have here := first inside (accepted.inner node inside (Or.inl tile))
  unfold Evaluator.linkHolder
  split
  · next scope =>
    exact ⟨here, here, accepted.inner _ (InitAnalysis.mem_positions.mpr here) (Or.inr scope)⟩
  · exact ⟨here, InitAnalysis.mem_positions.mp inside, accepted.inner node inside (Or.inl tile)⟩

theorem getInterConNode_eq (accepted : ev.Accepted) (inside : node ∈ Rose.postorder [] ev.root_)
    (tile : ev.get_type node = .Tile) (idx : Nat) :
    getInterConNode ev node idx = (do
      let child ← ev.child (ev.linkHolder node) idx
      let source_name ←
        if ev.get_type child = .Trans then
          if idx = 0 then .error .outOfRange
          else do
            let prev_child ← ev.child (ev.linkHolder node) (idx - 1)
            .ok (lastLeaf (ev.ori_node_ prev_child)).get_target_level_name
        else .ok (ev.target_level node)
      match ev.intercon_.intercon_attri_map_ (source_name ++ "2" ++ ev.target_level child) with
      | some node => .ok node
      | none => .error (.assertion "Do not find inter-connection")) := by
  obtain ⟨first, _, _⟩ := linkHolder_children accepted inside tile
  obtain ⟨c, at_first⟩ := Option.isSome_iff_exists.mp first
  rw [getInterConNode, Evaluator.child_of_get? at_first, ok_bind]
  rfl

theorem getInterConNode_outOfRange_iff (accepted : ev.Accepted)
    (inside : node ∈ Rose.postorder [] ev.root_) (tile : ev.get_type node = .Tile) {idx : Nat}
    (bound : idx < (ev.ori_node_ (ev.linkHolder node)).children.length) :
    getInterConNode ev node idx = .error .outOfRange ↔
      idx = 0 ∧ ev.get_type (0 :: ev.linkHolder node) = .Trans := by
  have here : ev.child (ev.linkHolder node) idx = .ok (idx :: ev.linkHolder node) := if_pos bound
  rw [getInterConNode_eq accepted inside tile, here, ok_bind]
  have found (source_name : String) :
      (match ev.intercon_.intercon_attri_map_ (source_name ++ "2" ++
          ev.target_level (idx :: ev.linkHolder node)) with
      | some node => (.ok node : Exec InterConNode)
      | none => .error (.assertion "Do not find inter-connection")) ≠ .error .outOfRange := by
    split <;> simp
  by_cases trans : ev.get_type (idx :: ev.linkHolder node) = .Trans
  · by_cases zero : idx = 0
    · subst zero
      simp [trans]
    · have before : ev.child (ev.linkHolder node) (idx - 1) =
          .ok ((idx - 1) :: ev.linkHolder node) := if_pos (by omega)
      simp only [trans, if_true, zero, if_false, before, ok_bind, false_and, iff_false]
      exact found _
  · have other : ¬ (idx = 0 ∧ ev.get_type (0 :: ev.linkHolder node) = .Trans) := by
      rintro ⟨rfl, kind⟩
      exact trans kind
    simp only [trans, if_false, ok_bind, other, iff_false]
    exact found _

theorem former_children_iff (accepted : ev.Accepted) (inside : node ∈ Rose.postorder [] ev.root_)
    (tile : ev.get_type node = .Tile) :
    (∀ idx < (ev.ori_node_ (ev.linkHolder node)).children.length,
      getInterConNode ev node idx ≠ .error .outOfRange) ↔
      ev.get_type (0 :: ev.linkHolder node) ≠ .Trans := by
  have some := List.length_pos_of_ne_nil (linkHolder_children accepted inside tile).2.2
  constructor
  · intro each trans
    exact each 0 some ((getInterConNode_outOfRange_iff accepted inside tile some).mpr ⟨rfl, trans⟩)
  · intro other idx bound outside
    exact other ((getInterConNode_outOfRange_iff accepted inside tile bound).mp outside).2

theorem navigatesInside_iff (prepared : ev.Prepared tree leaf_vec_) :
    ev.NavigatesInside tree leaf_vec_ ↔ ev.Navigable := by
  have accepted := prepared.accepted
  constructor
  · intro inside
    constructor
    · exact fun node _ inner => (findTarget_iff accepted inner).mp (inside.targets node inner)
    · exact fun node _ inner => (findSource_iff accepted inner).mp (inside.sources node inner)
    · exact (former_leaves_iff prepared).mp inside.former_leaves
    · intro node member tile reached
      exact (former_children_iff accepted member tile).mp
        (inside.former_children node member tile reached)
  · intro navigable
    constructor
    · exact fun node inner => (findTarget_iff accepted inner).mpr (navigable.targets node inner.1 inner)
    · exact fun node inner => (findSource_iff accepted inner).mpr (navigable.sources node inner.1 inner)
    · exact (former_leaves_iff prepared).mpr navigable.first_leaf
    · intro node member tile reached
      exact (former_children_iff accepted member tile).mpr
        (navigable.first_children node member tile reached)

theorem run_reads_no_parent (prepared : ev.Prepared tree leaf_vec_)
    (inside : ev.NavigatesInside tree leaf_vec_) :
    Stops (· ≠ .nullPointer) (PerfAnalysis.run ev tree leaf_vec_) := by
  have allows : Allows fun fault : Fault => fault ≠ .nullPointer := by
    constructor <;> simp
  have divides (connection : String) : ev.Divides (· ≠ .nullPointer) connection :=
    Or.inr (by simp)
  have keeps : Parts (tree.context ev leaf_vec_) fun t t' => True → True := by
    constructor <;> intros <;> trivial
  refine PerfAnalysis.run_stops prepared.idle ⟨allows, keeps, ?_, ?_, ?_⟩ trivial
  · intro node loops t _ _ _ _
    exact transTally_stops allows (fun former _ => divides _) t
  · intro node loops t _ found reached tile
    have inner (below : node ≠ []) : ev.InnerTile node :=
      ⟨InitAnalysis.mem_positions.mpr found, below, tile, reached⟩
    apply enterTile_stops allows
    · intro ins _ below
      obtain ⟨source, same⟩ := inside.sources node (inner below)
      exact getInputLatency_stops same (stops_ok source) (fun _ _ _ => divides _)
        fun _ _ _ _ => divides _
    · intro data_movement below
      obtain ⟨target, same⟩ := inside.targets node (inner below)
      exact getOutputLatency_stops allows same (stops_ok target) (fun _ _ _ _ => divides _)
        data_movement
  · intro node t _ _ _ _
    exact finishTile_stops (computeLatency_stops allows (by simp)) t

/-- `PerfAnalysis` stays inside the tree if and only if Forward Tiles and Trans stand where it
    expects them; then no run of it reads a parent of the root. -/
theorem navigates_inside_iff (ready : ev.prepare = .ok (tree, leaf_vec_)) :
    (ev.NavigatesInside tree leaf_vec_ ↔ ev.Navigable) ∧
      (ev.Navigable → PerfAnalysis.run ev tree leaf_vec_ ≠ .error .nullPointer) := by
  have prepared := Evaluator.prepare_eq_ok ready
  refine ⟨navigatesInside_iff prepared, fun navigable stopped => ?_⟩
  have inside := (navigatesInside_iff prepared).mpr navigable
  exact (run_reads_no_parent prepared inside).of_error _ stopped rfl

theorem navigates_inside_staged : ∃ tree leaf_vec_, (staged ["B"]).prepare = .ok (tree, leaf_vec_) ∧
    (staged ["B"]).Navigable ∧ (staged ["B"]).NavigatesInside tree leaf_vec_ ∧
      PerfAnalysis.run (staged ["B"]) tree leaf_vec_ ≠ .error .nullPointer := by
  obtain ⟨⟨tree, leaf_vec_⟩, ready⟩ := exists_of_isOk
    (show (staged ["B"]).prepare.isOk = true by decide +kernel)
  have navigable : (staged ["B"]).Navigable :=
    ⟨by decide +kernel, by decide +kernel, by decide +kernel, by decide +kernel⟩
  have both := navigates_inside_iff ready
  exact ⟨tree, leaf_vec_, ready, navigable, both.1.mpr navigable, both.2 navigable⟩

def unfollowed : Evaluator :=
  Config.evaluator (Config.workloads [("copy", ⟨["A"], "B"⟩)] [("M", 4)] [("A", ["M"]), ("B", ["M"])])
    1 [("Main2L1", ⟨1, .HD, 1, 1⟩), ("L12Main", ⟨1, .HD, 1, 1⟩), ("L12Cube", ⟨1, .HD, 1, 1⟩)]
    (Config.tile .Temporal "Main" [Config.loop "M" 2 2]
      [.mk ⟨"Tile", "L1", .Forward, .Tile .Temporal [Config.loop "M" 2 2]⟩
        [Config.op "Cube" "copy" [Config.loop "M" 1 1]]])

/-- `findTarget` climbs past the root. -/
theorem navigates_past_root : ∃ tree leaf_vec_, unfollowed.prepare = .ok (tree, leaf_vec_) ∧
    findTarget unfollowed [0] = .error .nullPointer ∧
    PerfAnalysis.run unfollowed tree leaf_vec_ = .error .nullPointer ∧
    ¬ unfollowed.NavigatesInside tree leaf_vec_ := by
  obtain ⟨⟨tree, leaf_vec_⟩, ready⟩ := exists_of_isOk
    (show unfollowed.prepare.isOk = true by decide +kernel)
  have past : findTarget unfollowed [0] = .error .nullPointer := by decide +kernel
  have stopped : (unfollowed.prepare >>= fun passes =>
      (PerfAnalysis.run unfollowed passes.1 passes.2).map fun _ => ()) = .error .nullPointer := by
    decide +kernel
  refine ⟨tree, leaf_vec_, ready, past, ?_, ?_⟩
  · rw [ready, ok_bind] at stopped
    cases run : PerfAnalysis.run unfollowed tree leaf_vec_ with
    | error fault =>
      rw [run] at stopped
      cases stopped
      rfl
    | ok s =>
      rw [run] at stopped
      cases stopped
  · intro inside
    obtain ⟨target, found⟩ := inside.targets [0] (by decide +kernel)
    rw [past] at found
    cases found

end TileExp.Analysis
