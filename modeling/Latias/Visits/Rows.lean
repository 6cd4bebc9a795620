import Latias.Visits.Evaluation

/-! The rows pushed on the `latency_vec_` of a Tile: whose latencies they hold, and which. -/

namespace TileExp.Analysis

open Checked

/-- An entry made from an Op holds what a visit of the Op leaves on it. -/
def Evaluator.Honest (ev : Evaluator) (entry : Latency) : Prop :=
  ev.get_type entry.origin = .Op → entry = ev.opLatency entry.origin

namespace LoopNest

structure RowsHonest (ev : Evaluator) (t : Tally) : Prop where
  rows : ∀ node, ∀ entry ∈ t.latency_sub_vec_ node, ev.Honest entry
  logged : ∀ node row, Event.row node row ∈ t.log → ∀ entry ∈ row, ev.Honest entry

variable {ev : Evaluator} {ctx : PerfContext} {node ptr : NodePtr} {loops : List LoopState}
  {t t' : Tally}

theorem RowsHonest.keep (before : RowsHonest ev t)
    (rows : t'.latency_sub_vec_ = t.latency_sub_vec_)
    (log : ∀ node row, Event.row node row ∈ t'.log → Event.row node row ∈ t.log) :
    RowsHonest ev t' :=
  ⟨fun node entry member => before.rows node entry (rows ▸ member),
    fun node row member => before.logged node row (log node row member)⟩

theorem RowsHonest.record (before : RowsHonest ev t) (event : Event)
    (other : ∀ node row, event ≠ .row node row) : RowsHonest ev (t.record event) := by
  refine before.keep rfl ?_
  intro node row member
  rcases List.mem_append.mp member with earlier | last
  · exact earlier
  · exact absurd (List.mem_singleton.mp last).symm (other node row)

theorem RowsHonest.setRow (before : RowsHonest ev t) (row : List Latency)
    (honest : ∀ entry ∈ row, ev.Honest entry) : RowsHonest ev (t.setRow node row) := by
  refine ⟨fun ptr entry member => ?_, before.logged⟩
  rcases eq_or_ne ptr node with rfl | apart
  · exact honest entry (by simpa [Tally.setRow] using member)
  · exact before.rows ptr entry (by simpa [Tally.setRow, apart] using member)

theorem RowsHonest.step (before : RowsHonest ctx.ev t) (step : Step ctx t t') :
    RowsHonest ctx.ev t' := by
  cases step with
  | enter ptr loops => exact before.record _ fun _ _ same => by cases same
  | leave ptr => exact before.record _ fun _ _ same => by cases same
  | op ptr loops _ kind =>
    refine before.keep rfl ?_
    intro node row member
    rcases List.mem_append.mp member with earlier | last
    · exact earlier
    · cases List.mem_singleton.mp last
  | trans call =>
    rw [transTally_eq_ok call]
    exact before.keep rfl fun _ _ member => member
  | clearRow ptr => exact before.setRow [] (by simp)
  | pushLatency ptr child _ visited =>
    refine before.setRow _ ?_
    intro entry member
    rcases List.mem_append.mp member with earlier | last
    · exact before.rows ptr entry earlier
    · cases List.mem_singleton.mp last
      exact visited
  | copyRow ptr child => exact before.setRow _ (before.rows child)
  | finishScope call =>
    unfold finishScope at call
    split at call
    · cases call
    · cases call
      exact before.keep rfl fun _ _ member => member
  | @pushRow ptr _ _ call =>
    obtain ⟨_, rfl⟩ := pushRow_eq_ok call
    refine ⟨before.rows, fun node row member => ?_⟩
    rcases List.mem_append.mp member with earlier | last
    · exact before.logged node row earlier
    · cases List.mem_singleton.mp last
      exact before.rows ptr
  | @finishTile ptr _ _ call =>
    obtain ⟨latency, _, rfl⟩ := finishTile_eq_ok call
    have recorded := before.record (.compute ptr (t.latency_vec_ ptr))
      fun _ _ same => by cases same
    split
    · exact recorded.keep rfl fun _ _ member => member
    · exact recorded
  | charge skew call =>
    obtain ⟨ins, outs, tile, trans, entered⟩ := enterTile_eq_ok call
    rw [entered.result]
    refine before.keep rfl ?_
    intro node row member
    rcases List.mem_append.mp member with earlier | later
    · exact earlier
    · simp at later
  | clearSkew ptr dim_name => exact before.keep rfl fun _ _ member => member
  | advanceSkew ptr dim_name offset => exact before.keep rfl fun _ _ member => member
  | restoreSkew ptr dim_name => exact before.keep rfl fun _ _ member => member

/-- Every row of a run is the one its Tile's children give. -/
theorem row_mem_skeleton (ptr : NodePtr) (sub : Node) (found : ev.root_.get? ptr = some sub) :
    ∀ loops node origins, Mark.row node origins ∈ skeleton ptr sub loops →
      origins = tileRow node 0 (ev.ori_node_ node).children [] := by
  induction ptr, sub using Rose.position_induction₂
    (S := fun ptr i cs => ChildrenAt ev ptr i cs → ∀ loops node origins,
      Mark.row node origins ∈ scopeSkeleton ptr i cs loops →
        origins = tileRow node 0 (ev.ori_node_ node).children [])
    (T := fun ptr i cs => ChildrenAt ev ptr i cs → ∀ loops node origins,
      Mark.row node origins ∈ tileSkeleton ptr i cs loops →
        origins = tileRow node 0 (ev.ori_node_ node).children []) with
  | node ptr info cs scope tile =>
    intro loops node origins member
    have placed := childrenAt_zero found
    rw [skeleton, List.mem_append, List.mem_cons] at member
    obtain ⟨name_, level, mode, kind⟩ := info
    cases kind with
    | Op ops => simp at member
    | Trans => simp at member
    | Scope type =>
      have inside : Mark.row node origins ∈ scopeSkeleton ptr 0 cs loops := by simpa using member
      exact scope placed loops node origins inside
    | Tile type dims =>
      rcases member with (enter | inside) | leave
      · cases enter
      · rcases List.mem_append.mp inside with inside | compute
        · obtain ⟨loops', _, inside⟩ := List.mem_flatMap.mp inside
          rcases List.mem_append.mp inside with charge | inside
          · unfold firstMarks at charge
            split at charge <;> simp at charge
          · rcases List.mem_append.mp inside with child | row
            · exact tile placed loops' node origins child
            · cases List.mem_singleton.mp row
              rw [Evaluator.ori_node_of_get? found]
              rfl
        · cases List.mem_singleton.mp compute
      · cases List.mem_singleton.mp leave
  | first_nil ptr i =>
    rename_i placed loops node origins member
    cases member
  | first_cons ptr i c cs first rest =>
    rename_i placed loops node origins member
    rcases List.mem_append.mp member with here | later
    · exact first placed.head loops node origins here
    · exact rest placed.tail loops node origins later
  | second_nil ptr i =>
    rename_i placed loops node origins member
    cases member
  | second_cons ptr i c cs first rest =>
    rename_i placed loops node origins member
    rcases List.mem_append.mp member with here | later
    · exact first placed.head loops node origins here
    · split at later
      · cases later
      · exact rest placed.tail loops node origins later

theorem mem_scopeRow {child : NodePtr} (cs : List Node) (k : Nat) :
    child ∈ scopeRow ptr k cs ↔
      ∃ j c, cs[j]? = some c ∧ Node.get_type c ≠ .Trans ∧ child = (k + j) :: ptr := by
  induction cs generalizing k with
  | nil => simp [scopeRow]
  | cons head cs ih =>
    have shifted : (∃ j c, (head :: cs)[j]? = some c ∧ Node.get_type c ≠ .Trans ∧
        child = (k + j) :: ptr) ↔ (Node.get_type head ≠ .Trans ∧ child = k :: ptr) ∨
          ∃ j c, cs[j]? = some c ∧ Node.get_type c ≠ .Trans ∧ child = (k + 1 + j) :: ptr := by
      constructor
      · rintro ⟨j, c, at_j, other, place⟩
        cases j with
        | zero => cases at_j; exact Or.inl ⟨other, place⟩
        | succ j => exact Or.inr ⟨j, c, at_j, other, by rw [place]; congr 1; omega⟩
      · rintro (⟨other, place⟩ | ⟨j, c, at_j, other, place⟩)
        · exact ⟨0, head, rfl, other, place⟩
        · exact ⟨j + 1, c, at_j, other, by rw [place]; congr 1; omega⟩
    rw [shifted, scopeRow]
    split
    · next trans => simp [ih, trans]
    · next other => simp [ih, other]

theorem mem_tileRow_of_plain {child : NodePtr} (cs : List Node) (k : Nat) (row : List NodePtr)
    (plain : ∀ c ∈ cs, Node.get_type c ≠ .Scope) :
    child ∈ tileRow ptr k cs row ↔ child ∈ row ∨ ∃ j < cs.length, child = (k + j) :: ptr := by
  induction cs generalizing k row with
  | nil => simp [tileRow]
  | cons head cs ih =>
    have inner := ih (k + 1) (row ++ [k :: ptr]) fun c member => plain c (List.mem_cons_of_mem _ member)
    rw [tileRow, if_neg (plain head List.mem_cons_self), inner, List.mem_append, List.mem_singleton,
      or_assoc]
    apply or_congr Iff.rfl
    constructor
    · rintro (place | ⟨j, bound, place⟩)
      · exact ⟨0, Nat.succ_pos _, place⟩
      · exact ⟨j + 1, Nat.succ_lt_succ bound, by rw [place]; congr 1; omega⟩
    · rintro ⟨j, bound, place⟩
      cases j with
      | zero => exact Or.inl place
      | succ j => exact Or.inr ⟨j, Nat.lt_of_succ_lt_succ bound, by rw [place]; congr 1; omega⟩

/-- The first Scope among the children of a Tile replaces the row by its own. -/
theorem tileRow_of_scope {c : Node} (cs : List Node) (k m : Nat) (row : List NodePtr)
    (child : cs[m]? = some c) (scope : Node.get_type c = .Scope) (reached : reachedChild cs m) :
    tileRow ptr k cs row = scopeRow ((k + m) :: ptr) 0 c.children := by
  induction cs generalizing k m row with
  | nil => cases child
  | cons head cs ih =>
    cases m with
    | zero =>
      cases child
      rw [tileRow, if_pos scope]
      rfl
    | succ m =>
      have before : Node.get_type head ≠ .Scope ∧ reachedChild cs m := by
        simpa [reachedChild] using reached
      rw [tileRow, if_neg before.1, ih (k + 1) m _ child before.2,
        show k + 1 + m = k + (m + 1) by omega]

theorem exists_first_scope (cs : List Node) (scope : ∃ c ∈ cs, Node.get_type c = .Scope) :
    ∃ m c, cs[m]? = some c ∧ Node.get_type c = .Scope ∧ reachedChild cs m := by
  induction cs with
  | nil => obtain ⟨c, member, _⟩ := scope; cases member
  | cons head cs ih =>
    by_cases first : Node.get_type head = .Scope
    · exact ⟨0, head, rfl, first, rfl⟩
    · obtain ⟨c, member, kind⟩ := scope
      have later : c ∈ cs := by
        rcases List.mem_cons.mp member with rfl | later
        · exact absurd kind first
        · exact later
      obtain ⟨m, d, child, kind, reached⟩ := ih ⟨c, later, kind⟩
      exact ⟨m + 1, d, child, kind, by simpa [reachedChild, first] using reached⟩

theorem length_le_of_mem_tileRow {child : NodePtr} {cs : List Node}
    (member : child ∈ tileRow ptr 0 cs []) : child.length ≤ ptr.length + 2 := by
  by_cases plain : ∀ c ∈ cs, Node.get_type c ≠ .Scope
  · rcases (mem_tileRow_of_plain cs 0 [] plain).mp member with none | ⟨j, _, rfl⟩
    · cases none
    · simp
  · push Not at plain
    obtain ⟨m, c, place, kind, reached⟩ := exists_first_scope cs plain
    rw [tileRow_of_scope cs 0 m [] place kind reached, mem_scopeRow] at member
    obtain ⟨j, d, _, _, rfl⟩ := member
    simp

end LoopNest

end TileExp.Analysis
