import Latias.Counts.Completeness
import Latias.Visits.Evaluation

/-! Which mapping trees `GetLoopCount` accepts. -/

namespace TileExp.Analysis

open Checked

/-- Along the way to an Op only the outermost loop over a dimension may have a tail longer than its
    full range. -/
def Evaluator.OrderedTails (ev : Evaluator) : Prop :=
  ∀ op, ev.IsOp op → ∀ dim_name, ∀ loop ∈ (ev.dimLoops op dim_name).tail,
    loop.residual_end ≤ loop.end_

namespace GetLoopCount

variable {ev : Evaluator} {node : NodePtr} {s : Inherit}

theorem get_loop_count_ordered {nests : List (List Descriptor)}
    (ordered : ∀ dim_name, ∀ loop ∈ (ofDim dim_name nests.flatten).tail,
      loop.residual_end ≤ loop.end_) : ∃ table, get_loop_count nests = .ok table := by
  have completes := @foldlM_completes _ _ _ pushDim nests.flatten (∅, ∅) Collected Collected.nil ?_
  · obtain ⟨ends, pushed, _⟩ := completes
    exact ⟨_, by rw [get_loop_count, pushed]; rfl⟩
  · intro done loop rest ends split collected
    have pushes : ∃ ends', pushDim ends loop = .ok ends' := by
      by_cases present : loop.name_ ∈ done.map Descriptor.name_
      · apply pushDim_total
        apply ordered loop.name_ loop
        rw [split, ofDim_append, ofDim_cons_self]
        have earlier : ofDim loop.name_ done ≠ [] := fun none => ofDim_eq_nil.mp none present
        rw [List.tail_append_of_ne_nil earlier]
        exact List.mem_append_right _ List.mem_cons_self
      · unfold pushDim
        rw [collected.dim_ends, if_neg present]
        exact ⟨_, rfl⟩
    obtain ⟨ends', pushed⟩ := pushes
    exact ⟨ends', pushed, collected.snoc pushed⟩

theorem visit_total (fresh : s node = [])
    (above : ∀ i parent, node = i :: parent → s parent = ev.tileNests node)
    (accepted : NodeAccepted ev node)
    (ordered : ev.get_type node = .Op → ∀ dim_name, ∀ loop ∈ (ev.dimLoops node dim_name).tail,
      loop.residual_end ≤ loop.end_) : ∃ s', visit ev (ev.ori_node_ node) node s = .ok s' := by
  have kind_eq : (ev.ori_node_ node).get_type = ev.get_type node := rfl
  have has_parent : ev.get_type node ≠ .Tile → ∃ i parent, node = i :: parent := by
    intro other
    cases node with
    | nil => exact absurd (accepted.root rfl) other
    | cons i parent => exact ⟨i, parent, rfl⟩
  have children : ev.get_type node = .Tile ∨ ev.get_type node = .Scope →
      (ev.ori_node_ node).children.length > 0 :=
    fun inner => List.length_pos_of_ne_nil (accepted.inner inner)
  unfold visit
  rw [kind_eq]
  cases kind : ev.get_type node with
  | Tile =>
    simp only [visitTile, tileexpAssert, if_pos (children (Or.inl kind)), ok_bind]
    exact ⟨_, rfl⟩
  | Scope =>
    obtain ⟨i, parent, rfl⟩ := has_parent (by rw [kind]; decide)
    simp only [visitScope, parentLoopnests, get_parent, tileexpAssert,
      if_pos (children (Or.inr kind)), ok_bind]
    exact ⟨_, rfl⟩
  | Trans =>
    obtain ⟨i, parent, rfl⟩ := has_parent (by rw [kind]; decide)
    simp only [visitTrans, parentLoopnests, get_parent, tileexpAssert,
      if_pos (accepted.leaves (Or.inr kind)), ok_bind]
    exact ⟨_, rfl⟩
  | Op =>
    obtain ⟨i, parent, rfl⟩ := has_parent (by rw [kind]; decide)
    have nests : ((s (i :: parent) ++ s parent) ++ [(ev.ori_node_ (i :: parent)).loopnests_]) =
        ev.opNests (i :: parent) := by
      rw [fresh, above i parent rfl]
      rfl
    obtain ⟨table, counted⟩ := get_loop_count_ordered (ordered kind)
    have bounds (name_ : String) : checkBounds ev.workloads_ name_ table = .ok () := by
      apply checkBounds_iff.mpr
      intro dim_name count found
      rw [lookup_get_loop_count counted] at found
      split at found
      · next present =>
        rw [accepted.bounded kind dim_name present]
        exact Option.some.inj found
      · cases found
    simp only [visitOp, parentLoopnests, get_parent, add_inherit_loopnest, Function.update_self,
      tileexpAssert, if_pos (accepted.leaves (Or.inl kind)), ok_bind, nests, counted, bounds]
    exact ⟨_, rfl⟩

theorem nodeAccepted (accepted : ev.Accepted) (member : node ∈ Rose.postorder [] ev.root_) :
    NodeAccepted ev node := by
  refine ⟨?_, accepted.leaves node member, accepted.inner node member, ?_⟩
  · rintro rfl
    exact accepted.root
  · exact fun op => accepted.bounded node (InitAnalysis.isOp_iff.mpr ⟨member, op⟩)

/-- The pass completes just when every node is accepted and the tails are ordered. -/
theorem run_completes_iff :
    (∃ tree, run ev (EvaTree.fresh ev) = .ok tree) ↔ ev.Accepted ∧ ev.OrderedTails := by
  have order := @traverse_before _ ev (visit ev) [] ev.root_ rfl (EvaTree.fresh ev).inherit_loopnests_
  constructor
  · rintro ⟨tree, completed⟩
    refine ⟨run_accepted (fun _ => rfl) completed, fun op op_node dim_name => ?_⟩
    obtain ⟨⟨_, s⟩, passed, _⟩ := bind_eq_ok.mp completed
    rw [order] at passed
    obtain ⟨s', passed, _⟩ := bind_eq_ok.mp passed
    obtain ⟨done, rest, split⟩ := List.append_of_mem (mem_preorder_of_isSome op_node.1)
    rw [split, List.foldlM_append] at passed
    obtain ⟨before, passed, later⟩ := bind_eq_ok.mp passed
    rw [List.foldlM_cons] at later
    obtain ⟨after, step, _⟩ := bind_eq_ok.mp later
    have accepts : visitOp ev (ev.ori_node_ op) op before = .ok after := by
      have kind : (ev.ori_node_ op).get_type = .Op := op_node.2
      rw [visit, kind] at step
      exact step
    obtain ⟨table, counted, _⟩ := visitOp_counts split passed accepts
    exact bounded_of_count counted dim_name
  · rintro ⟨accepted, ordered⟩
    have completes := @foldlM_completes _ _ _
      (fun s node => visit ev (ev.ori_node_ node) node s) (Rose.preorder [] ev.root_)
      (EvaTree.fresh ev).inherit_loopnests_ (fun done s => Passed ev done s)
      ⟨by simp, by simp [EvaTree.fresh]⟩ ?_
    · obtain ⟨s, passed, _⟩ := completes
      rw [passed, ok_bind] at order
      exact ⟨_, by rw [run, order, ok_bind]⟩
    · intro done node rest s split before
      obtain ⟨fresh, above⟩ := before.fresh_above split
      have member : node ∈ Rose.preorder [] ev.root_ :=
        split ▸ List.mem_append_right done List.mem_cons_self
      have there : node ∈ Rose.postorder [] ev.root_ :=
        (Rose.preorder_perm [] ev.root_).mem_iff.mp member
      obtain ⟨s', step⟩ := visit_total fresh above (nodeAccepted accepted there)
        fun op dim_name => ordered node (InitAnalysis.isOp_iff.mpr ⟨there, op⟩) dim_name
      exact ⟨s', step, before.step split step⟩

end GetLoopCount

end TileExp.Analysis
