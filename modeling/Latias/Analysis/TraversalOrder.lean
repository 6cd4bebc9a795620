import Latias.Analysis.Traversal
import Latias.Library.Checked

namespace TileExp.Analysis

open Checked

namespace Evaluator

variable {ev : Evaluator} {node : NodePtr} {i : Nat} {sub : Node}

theorem ori_node_of_get? (found : ev.root_.get? node = some sub) : ev.ori_node_ node = sub := by
  rw [ori_node_, found]
  rfl

theorem child_of_get? (found : ev.root_.get? (i :: node) = some sub) :
    ev.child node i = .ok (i :: node) := by
  rw [Rose.get?_cons] at found
  obtain ⟨parent, above, child⟩ := Option.bind_eq_some_iff.mp found
  rw [Evaluator.child, ori_node_of_get? above, if_pos (List.getElem?_eq_some_iff.mp child).1]

theorem get?_of_child {ptr : NodePtr} (call : ev.child node i = .ok ptr)
    (found : (ev.root_.get? node).isSome) :
    ptr = i :: node ∧ (ev.root_.get? ptr).isSome := by
  obtain ⟨sub, found⟩ := Option.isSome_iff_exists.mp found
  rw [child, ori_node_of_get? found] at call
  split at call
  · next bound =>
    cases call
    refine ⟨rfl, ?_⟩
    rw [Rose.get?_cons, found, Option.bind_some, List.getElem?_eq_getElem bound]
    rfl
  · cases call

theorem isSome_get?_parent (found : (ev.root_.get? (i :: node)).isSome) :
    (ev.root_.get? node).isSome := by
  rw [Rose.get?_cons] at found
  cases above : ev.root_.get? node with
  | none => rw [above] at found; cases found
  | some _ => rfl

theorem isSome_get?_above {q : Rose.Address} (found : (ev.root_.get? (q ++ node)).isSome) :
    (ev.root_.get? node).isSome := by
  induction q with
  | nil => exact found
  | cons i q ih => exact ih (isSome_get?_parent found)

@[elab_as_elim]
theorem below_induction {P : NodePtr → Prop} (step : ∀ node, (ev.root_.get? node).isSome →
      (∀ ptr, node <:+ ptr → ptr ≠ node → (ev.root_.get? ptr).isSome → P ptr) → P node)
    (node : NodePtr) (found : (ev.root_.get? node).isSome) : P node := by
  have all : ∀ (sub : Node) (node : NodePtr), ev.root_.get? node = some sub →
      ∀ ptr, node <:+ ptr → (ev.root_.get? ptr).isSome → P ptr := by
    intro sub
    induction sub using Rose.children_induction with
    | step info cs ih =>
      intro node found
      have below : ∀ ptr, node <:+ ptr → ptr ≠ node → (ev.root_.get? ptr).isSome → P ptr := by
        rintro ptr ⟨q, rfl⟩ apart inside
        rcases List.eq_nil_or_concat q with rfl | ⟨q, i, rfl⟩
        · exact absurd rfl apart
        · rw [List.concat_eq_append, List.append_assoc] at inside ⊢
          have child : (cs[i]?).isSome := by
            rw [Rose.get?_append] at inside
            cases at_i : cs[i]? with
            | none =>
              rw [List.singleton_append, Rose.get?_cons, found, Option.bind_some,
                Rose.children_mk, at_i] at inside
              cases inside
            | some c => rfl
          obtain ⟨c, child⟩ := Option.isSome_iff_exists.mp child
          exact ih c (List.mem_of_getElem? child) (i :: node) (Rose.get?_child found child) _
            (List.suffix_append q (i :: node)) inside
      intro ptr under inside
      by_cases here : ptr = node
      · subst here
        exact step ptr inside below
      · exact below ptr under here inside
  obtain ⟨sub, at_node⟩ := Option.isSome_iff_exists.mp found
  exact all sub node at_node node List.suffix_rfl found

end Evaluator

variable {σ : Type}

def ChildrenAt (ev : Evaluator) (node : NodePtr) (i : Nat) (cs : List Node) : Prop :=
  ∀ j c, cs[j]? = some c → ev.root_.get? ((i + j) :: node) = some c

theorem childrenAt_zero {ev : Evaluator} {node : NodePtr} {info : NodeInfo} {cs : List Node}
    (found : ev.root_.get? node = some (.mk info cs)) : ChildrenAt ev node 0 cs := by
  intro j c child
  rw [Nat.zero_add]
  exact Rose.get?_child found child

theorem ChildrenAt.head {ev : Evaluator} {node : NodePtr} {i : Nat} {c : Node} {cs : List Node}
    (placed : ChildrenAt ev node i (c :: cs)) : ev.root_.get? (i :: node) = some c :=
  placed 0 c rfl

theorem ChildrenAt.tail {ev : Evaluator} {node : NodePtr} {i : Nat} {c : Node} {cs : List Node}
    (placed : ChildrenAt ev node i (c :: cs)) : ChildrenAt ev node (i + 1) cs := by
  intro j d child
  have shifted := placed (j + 1) d child
  rwa [show i + (j + 1) = i + 1 + j by omega] at shifted

/-- A pass that acts after the children is a loop over the positions in postorder. -/
theorem traverse_after (ev : Evaluator) (after : Node → NodePtr → σ → Exec σ) (node : NodePtr)
    (sub : Node) (found : ev.root_.get? node = some sub) (s : σ) :
    traverse ev (fun _ _ s => .ok s) after sub (node, s) = (do
      let s ← (Rose.postorder node sub).foldlM (fun s ptr => after (ev.ori_node_ ptr) ptr s) s
      .ok (up node, s)) := by
  induction node, sub using Rose.position_induction (S := fun node i cs => ∀ s,
    ChildrenAt ev node i cs →
      traverseChildren ev (fun _ _ s => .ok s) after i cs (node, s) = (do
        let s ← (Rose.postorders node i cs).foldlM (fun s ptr => after (ev.ori_node_ ptr) ptr s) s
        .ok (node, s))) generalizing s with
  | node node info cs ih =>
    rw [traverse, Rose.postorder, List.foldlM_append]
    simp only [ok_bind, ih s (childrenAt_zero found), bind_assoc, List.foldlM_cons,
      List.foldlM_nil, Evaluator.ori_node_of_get? found]
    refine bind_congr fun s => bind_congr fun s => ?_
    rfl
  | nil node i => rfl
  | cons node i c cs first rest =>
    rename_i s placed
    rw [traverseChildren, Rose.postorders, List.foldlM_append]
    simp only [Evaluator.child_of_get? placed.head, ok_bind, first placed.head s, bind_assoc]
    exact bind_congr fun s => rest s placed.tail

theorem traverse_before (ev : Evaluator) (before : Node → NodePtr → σ → Exec σ) (node : NodePtr)
    (sub : Node) (found : ev.root_.get? node = some sub) (s : σ) :
    traverse ev before (fun _ _ s => .ok s) sub (node, s) = (do
      let s ← (Rose.preorder node sub).foldlM (fun s ptr => before (ev.ori_node_ ptr) ptr s) s
      .ok (up node, s)) := by
  induction node, sub using Rose.position_induction (S := fun node i cs => ∀ s,
    ChildrenAt ev node i cs →
      traverseChildren ev before (fun _ _ s => .ok s) i cs (node, s) = (do
        let s ← (Rose.preorders node i cs).foldlM (fun s ptr => before (ev.ori_node_ ptr) ptr s) s
        .ok (node, s))) generalizing s with
  | node node info cs ih =>
    rw [traverse, Rose.preorder, List.foldlM_cons]
    simp only [ih _ (childrenAt_zero found), bind_assoc, Evaluator.ori_node_of_get? found]
    exact bind_congr fun s => bind_congr fun s => rfl
  | nil node i => rfl
  | cons node i c cs first rest =>
    rename_i s placed
    rw [traverseChildren, Rose.preorders, List.foldlM_append]
    simp only [Evaluator.child_of_get? placed.head, ok_bind, first placed.head s, bind_assoc]
    exact bind_congr fun s => rest s placed.tail

theorem Evaluator.isSome_get?_of_loop {ev : Evaluator} {node : NodePtr} {loop : Descriptor}
    (member : loop ∈ ev.loopnests_ node) : (ev.root_.get? node).isSome := by
  cases found : ev.root_.get? node with
  | none =>
    rw [loopnests_, ori_node_, found] at member
    cases member
  | some sub => rfl

end TileExp.Analysis
