import Latias.Offsets.Carrier
import Latias.Visits.Evaluation

/-! What `Evaluator::reset` clears: the root and its children. -/

namespace TileExp.Analysis

variable {ev : Evaluator} {tree : EvaTree} {node : NodePtr}

def Evaluator.resetNodes (ev : Evaluator) : List NodePtr := [] :: ev.get_children []

instance (node : NodePtr) (nodes : List NodePtr) : Decidable (node ∈ nodes) :=
  List.instDecidableMemOfLawfulBEq node nodes

/-- A tree whose nodes in `nodes` went through `EvaNode::reset`. -/
def EvaTree.cleared (nodes : List NodePtr) (tree : EvaTree) : EvaTree :=
  { tree with
    inherit_loopnests_ node := if node ∈ nodes then [] else tree.inherit_loopnests_ node
    input_tensors_ node := if node ∈ nodes then ∅ else tree.input_tensors_ node
    output_tensors_ node := if node ∈ nodes then ∅ else tree.output_tensors_ node
    last_dim_offset_ node := if node ∈ nodes then fun _ => none else tree.last_dim_offset_ node
    dim_offset_ node := if node ∈ nodes then fun _ => none else tree.dim_offset_ node
    ori_start_ node := if node ∈ nodes then [] else tree.ori_start_ node
    current_start_ node := if node ∈ nodes then [] else tree.current_start_ node
    current_dim_skew_ node := if node ∈ nodes then fun _ => 0 else tree.current_dim_skew_ node
    latency_vec_ node := if node ∈ nodes then [] else tree.latency_vec_ node }

theorem ite_update {β : Type} (f : NodePtr → β) (v : β) (node : NodePtr) (nodes : List NodePtr) :
    (fun ptr => if ptr ∈ nodes then v else Function.update f node v ptr) =
      fun ptr => if ptr ∈ node :: nodes then v else f ptr := by
  funext ptr
  by_cases here : ptr = node
  · subst here
    simp
  · simp [here]

theorem EvaTree.foldl_reset (nodes : List NodePtr) (tree : EvaTree) :
    nodes.foldl (fun tree node => tree.reset node) tree = tree.cleared nodes := by
  induction nodes generalizing tree with
  | nil => simp [EvaTree.cleared]
  | cons node nodes ih =>
    rw [List.foldl_cons, ih]
    simp only [EvaTree.cleared, EvaTree.reset, ite_update]

theorem Evaluator.reset_eq (ev : Evaluator) (tree : EvaTree) :
    ev.reset tree = tree.cleared ev.resetNodes := by
  rw [← EvaTree.foldl_reset]
  rfl

theorem mem_resetNodes (found : (ev.root_.get? node).isSome) :
    node ∈ ev.resetNodes ↔ node.length ≤ 1 := by
  rw [Evaluator.resetNodes, List.mem_cons, mem_get_children rfl]
  constructor
  · rintro (rfl | ⟨i, rfl, _⟩)
    · exact Nat.zero_le 1
    · exact Nat.le_refl 1
  · intro short
    match node, short with
    | [], _ => exact Or.inl rfl
    | [i], _ => exact Or.inr ⟨i, rfl, found⟩

end TileExp.Analysis
