import Latias.Visits.Skeleton

/-! The steps under a node, visit by visit. -/

namespace TileExp.Analysis

def Mark.node : Mark → NodePtr
  | enter node _ => node
  | charge node _ _ => node
  | op node _ => node
  | row node _ => node
  | compute node => node
  | leave node => node

def Mark.under (node : NodePtr) (mark : Mark) : Bool := node.isSuffixOf mark.node

theorem Mark.under_iff {node : NodePtr} {mark : Mark} : mark.under node = true ↔ node <:+ mark.node :=
  List.isSuffixOf_iff_suffix

namespace LoopNest

variable {ev : Evaluator} {node ptr : NodePtr} {loops : List LoopState}

theorem isLast_cons (loop : LoopState) (loops : List LoopState) (dim_name : String) :
    isLast (loop :: loops) dim_name =
      if loop.name_ = dim_name then loop.is_last && isLast loops dim_name
      else isLast loops dim_name := by
  unfold isLast
  by_cases same : loop.name_ = dim_name <;> simp [same]

/-- No Scope among the first children of a Tile: a Scope ends the loop over the children. -/
def reachedChild (cs : List Node) (i : Nat) : Bool :=
  (cs.take i).all fun c => Node.get_type c ≠ .Scope

def childVisits (ptr : NodePtr) (sub : Node) (i : Nat) (loops : List LoopState) :
    List (List LoopState) :=
  match sub.value.kind with
  | .Tile _ dims => if reachedChild sub.children i then iterations ptr dims loops else []
  | .Scope _ => [loops]
  | _ => []

/-- The iterations inside which a run visits a node, in order. -/
def visits (ev : Evaluator) : NodePtr → List (List LoopState)
  | [] => [[]]
  | i :: ptr => (visits ev ptr).flatMap (childVisits ptr (ev.ori_node_ ptr) i)

theorem skeleton_under (ptr : NodePtr) (sub : Node) :
    ∀ loops, ∀ mark ∈ skeleton ptr sub loops, ptr <:+ mark.node := by
  induction ptr, sub using Rose.position_induction₂
    (S := fun ptr i cs => ∀ loops, ∀ mark ∈ scopeSkeleton ptr i cs loops,
      ∃ j, i ≤ j ∧ (j :: ptr) <:+ mark.node)
    (T := fun ptr i cs => ∀ loops, ∀ mark ∈ tileSkeleton ptr i cs loops,
      ∃ j, i ≤ j ∧ (j :: ptr) <:+ mark.node)
    with
  | node ptr info cs scope tile =>
    intro loops mark member
    have up : ∀ j, (j :: ptr) <:+ mark.node → ptr <:+ mark.node := fun j inside =>
      (List.suffix_cons j ptr).trans inside
    rw [skeleton, List.mem_append, List.mem_cons] at member
    rcases member with (rfl | inside) | last
    · exact List.suffix_rfl
    · obtain ⟨name_, level, mode, kind⟩ := info
      cases kind with
      | Op ops =>
        cases List.mem_singleton.mp inside
        exact List.suffix_rfl
      | Trans => cases inside
      | Scope type =>
        obtain ⟨j, _, below⟩ := scope loops mark inside
        exact up j below
      | Tile type dims =>
        rcases List.mem_append.mp inside with inside | last
        · obtain ⟨loops', _, inside⟩ := List.mem_flatMap.mp inside
          rcases List.mem_append.mp inside with charge | inside
          · unfold firstMarks at charge
            split at charge
            · rcases List.mem_cons.mp charge with rfl | charge
              · exact List.suffix_rfl
              · cases List.mem_singleton.mp charge
                exact List.suffix_rfl
            · cases charge
          · rcases List.mem_append.mp inside with inside | row
            · obtain ⟨j, _, below⟩ := tile loops' mark inside
              exact up j below
            · cases List.mem_singleton.mp row
              exact List.suffix_rfl
        · cases List.mem_singleton.mp last
          exact List.suffix_rfl
    · cases List.mem_singleton.mp last
      exact List.suffix_rfl
  | first_nil ptr i =>
    rename_i loops mark member
    cases member
  | first_cons ptr i c cs first rest =>
    rename_i loops mark member
    rcases List.mem_append.mp member with here | later
    · exact ⟨i, Nat.le_refl i, first loops mark here⟩
    · obtain ⟨j, bound, below⟩ := rest loops mark later
      exact ⟨j, by omega, below⟩
  | second_nil ptr i =>
    rename_i loops mark member
    cases member
  | second_cons ptr i c cs first rest =>
    rename_i loops mark member
    rcases List.mem_append.mp member with here | later
    · exact ⟨i, Nat.le_refl i, first loops mark here⟩
    · split at later
      · cases later
      · obtain ⟨j, bound, below⟩ := rest loops mark later
        exact ⟨j, by omega, below⟩

theorem filter_skeleton_self (sub : Node) :
    (skeleton ptr sub loops).filter (Mark.under ptr) = skeleton ptr sub loops :=
  List.filter_eq_self.mpr fun mark member =>
    Mark.under_iff.mpr (skeleton_under ptr sub loops mark member)

theorem filter_eq_nil_of_later {marks : List Mark} {i k : Nat} (order : i < k)
    (later : ∀ mark ∈ marks, ∃ j, k ≤ j ∧ (j :: ptr) <:+ mark.node) :
    marks.filter (Mark.under (i :: ptr)) = [] := by
  rw [List.filter_eq_nil_iff]
  intro mark member inside
  obtain ⟨j, bound, below⟩ := later mark member
  have same := Rose.child_unique (Mark.under_iff.mp inside) below
  omega

theorem filter_skeleton_sibling {i j : Nat} (apart : i ≠ j) (sub : Node) :
    (skeleton (i :: ptr) sub loops).filter (Mark.under (j :: ptr)) = [] := by
  rw [List.filter_eq_nil_iff]
  intro mark member inside
  exact apart (Rose.child_unique (skeleton_under (i :: ptr) sub loops mark member)
    (Mark.under_iff.mp inside))

theorem scopeSkeleton_later (i : Nat) (cs : List Node) :
    ∀ mark ∈ scopeSkeleton ptr i cs loops, ∃ j, i ≤ j ∧ (j :: ptr) <:+ mark.node := by
  induction cs generalizing i with
  | nil => exact fun mark member => absurd member List.not_mem_nil
  | cons c cs ih =>
    intro mark member
    rcases List.mem_append.mp member with here | later
    · exact ⟨i, Nat.le_refl i, skeleton_under (i :: ptr) c loops mark here⟩
    · obtain ⟨j, bound, below⟩ := ih (i + 1) mark later
      exact ⟨j, by omega, below⟩

theorem tileSkeleton_later (i : Nat) (cs : List Node) :
    ∀ mark ∈ tileSkeleton ptr i cs loops, ∃ j, i ≤ j ∧ (j :: ptr) <:+ mark.node := by
  induction cs generalizing i with
  | nil => exact fun mark member => absurd member List.not_mem_nil
  | cons c cs ih =>
    intro mark member
    rcases List.mem_append.mp member with here | later
    · exact ⟨i, Nat.le_refl i, skeleton_under (i :: ptr) c loops mark here⟩
    · split at later
      · cases later
      · obtain ⟨j, bound, below⟩ := ih (i + 1) mark later
        exact ⟨j, by omega, below⟩

theorem filter_scopeSkeleton (cs : List Node) :
    ∀ k j c, cs[j]? = some c → (scopeSkeleton ptr k cs loops).filter (Mark.under ((k + j) :: ptr)) =
      skeleton ((k + j) :: ptr) c loops := by
  induction cs with
  | nil => exact fun k j c child => by cases child
  | cons head cs ih =>
    intro k j c child
    rw [scopeSkeleton, List.filter_append]
    cases j with
    | zero =>
      cases child
      rw [Nat.add_zero, filter_skeleton_self,
        filter_eq_nil_of_later (Nat.lt_succ_self k) (scopeSkeleton_later (k + 1) cs),
        List.append_nil]
    | succ j =>
      rw [filter_skeleton_sibling (by omega), List.nil_append,
        show k + (j + 1) = k + 1 + j by omega]
      exact ih (k + 1) j c child

theorem filter_tileSkeleton (cs : List Node) :
    ∀ k j c, cs[j]? = some c → (tileSkeleton ptr k cs loops).filter (Mark.under ((k + j) :: ptr)) =
      if reachedChild cs j then skeleton ((k + j) :: ptr) c loops else [] := by
  induction cs with
  | nil => exact fun k j c child => by cases child
  | cons head cs ih =>
    intro k j c child
    rw [tileSkeleton, List.filter_append]
    cases j with
    | zero =>
      cases child
      rw [Nat.add_zero, filter_skeleton_self, filter_eq_nil_of_later (Nat.lt_succ_self k),
        List.append_nil, if_pos (by rfl)]
      split
      · exact fun mark member => absurd member List.not_mem_nil
      · exact tileSkeleton_later (k + 1) cs
    | succ j =>
      rw [filter_skeleton_sibling (by omega), List.nil_append,
        show k + (j + 1) = k + 1 + j by omega]
      by_cases scope : Node.get_type head = .Scope
      · rw [if_pos scope, if_neg (by simp [reachedChild, scope])]
        rfl
      · rw [if_neg scope, ih (k + 1) j c child]
        simp [reachedChild, scope]

theorem filter_skeleton_child {i : Nat} {sub c : Node} (child : sub.children[i]? = some c) :
    (skeleton ptr sub loops).filter (Mark.under (i :: ptr)) =
      (childVisits ptr sub i loops).flatMap (skeleton (i :: ptr) c) := by
  obtain ⟨info, cs⟩ := sub
  have outside : ∀ mark : Mark, mark.node = ptr → mark.under (i :: ptr) = false := by
    intro mark here
    rw [← Bool.not_eq_true, Mark.under_iff, here]
    exact fun inside => absurd inside.length_le (by simp)
  rw [skeleton, List.filter_append,
    List.filter_cons_of_neg (by simp [outside (.enter ptr loops) rfl]),
    List.filter_cons_of_neg (by simp [outside (.leave ptr) rfl]), List.filter_nil,
    List.append_nil]
  simp only [childVisits, Rose.value_mk, Rose.children_mk]
  obtain ⟨name_, level, mode, kind⟩ := info
  cases kind with
  | Op ops => simp [outside (.op ptr loops) rfl]
  | Trans => rfl
  | Scope type =>
    have one := @filter_scopeSkeleton ptr loops cs 0 i c child
    rw [Nat.zero_add] at one
    simp [one]
  | Tile type dims =>
    have first : ∀ loops, (firstMarks ptr loops).filter (Mark.under (i :: ptr)) = [] := by
      intro loops
      unfold firstMarks
      split <;> simp [outside (.charge ptr _ loops) rfl]
    have one : ∀ loops, (tileSkeleton ptr 0 cs loops).filter (Mark.under (i :: ptr)) =
        if reachedChild cs i then skeleton (i :: ptr) c loops else [] := by
      intro loops
      have one := @filter_tileSkeleton ptr loops cs 0 i c child
      rwa [Nat.zero_add] at one
    simp only [List.filter_append, List.filter_flatMap, first, one, List.filter_singleton,
      outside (.compute ptr) rfl, outside (.row ptr _) rfl]
    by_cases reached : reachedChild cs i
    · simp [reached]
    · simp [reached]

/-- The steps of a run under a node are those of its visits, in order. -/
theorem filter_skeleton (node : NodePtr) (sub : Node) (found : ev.root_.get? node = some sub) :
    (skeleton [] ev.root_ []).filter (Mark.under node) =
      (visits ev node).flatMap (skeleton node sub) := by
  induction node generalizing sub with
  | nil =>
    cases found
    rw [filter_skeleton_self, visits, List.flatMap_singleton]
  | cons i ptr ih =>
    rw [Rose.get?_cons] at found
    obtain ⟨parent, above, child⟩ := Option.bind_eq_some_iff.mp found
    have narrowed : (skeleton [] ev.root_ []).filter (Mark.under (i :: ptr)) =
        ((skeleton [] ev.root_ []).filter (Mark.under ptr)).filter (Mark.under (i :: ptr)) := by
      rw [List.filter_filter]
      refine List.filter_congr fun mark _ => ?_
      by_cases inside : mark.under (i :: ptr)
      · simp [inside, Mark.under_iff.mpr ((List.suffix_cons i ptr).trans (Mark.under_iff.mp inside))]
      · simp [inside]
    rw [narrowed, ih parent above, visits, Evaluator.ori_node_of_get? above, List.filter_flatMap,
      List.flatMap_assoc]
    exact congrArg (List.flatMap · (visits ev ptr)) (funext fun loops => filter_skeleton_child child)

theorem mem_skeleton_of_visits {sub : Node} {mark : Mark}
    (found : ev.root_.get? node = some sub) (visited : loops ∈ visits ev node)
    (member : mark ∈ skeleton node sub loops) : mark ∈ skeleton [] ev.root_ [] := by
  have inside : mark ∈ (visits ev node).flatMap (skeleton node sub) :=
    List.mem_flatMap.mpr ⟨loops, visited, member⟩
  rw [← filter_skeleton node sub found] at inside
  exact List.mem_of_mem_filter inside

end LoopNest

end TileExp.Analysis
