import Latias.Ranges.IterationSpace

/-! The order in which a run visits its Ops. -/

namespace TileExp.Analysis

open Checked

def opOrder (log : List Event) : List (NodePtr × List LoopState) :=
  log.filterMap fun event => match event with
    | .opCharge eva loops _ _ => some (eva, loops)
    | _ => none

def Before (log : List Event) (first second : NodePtr × List LoopState) : Prop :=
  ListOrder.Before (opOrder log) first second

def markOrder (marks : List Mark) : List (NodePtr × List LoopState) :=
  marks.filterMap fun mark => match mark with
    | .op eva loops => some (eva, loops)
    | _ => none

theorem opOrder_eq (t : Tally) : opOrder t.log = markOrder (LoopNest.marks t) := by
  rw [opOrder, markOrder, LoopNest.marks, List.filterMap_map]
  congr 1
  funext event
  cases event <;> rfl

namespace LoopNest

variable {ev : Evaluator} {ptr : NodePtr} {loops v w u : List LoopState} {i j : Nat} {sub ci cj : Node}

section Below

/-- The iterations inside which one visit of a node visits a node below it. -/
def visitsIn (ev : Evaluator) (ptr : NodePtr) (v : List LoopState) : Rose.Address → List (List LoopState)
  | [] => [v]
  | i :: r => (visitsIn ev ptr v r).flatMap (childVisits (r ++ ptr) (ev.ori_node_ (r ++ ptr)) i)

theorem visits_eq_visitsIn (r : Rose.Address) :
    visits ev (r ++ ptr) = (visits ev ptr).flatMap fun v => visitsIn ev ptr v r := by
  induction r with
  | nil => simp [visitsIn]
  | cons i r ih =>
    rw [List.cons_append, visits, ih, List.flatMap_assoc]
    rfl

theorem suffix_of_visitsIn (r : Rose.Address) (member : u ∈ visitsIn ev ptr v r) : v <:+ u := by
  induction r generalizing u with
  | nil => exact List.mem_singleton.mp member ▸ List.suffix_rfl
  | cons i r ih =>
    obtain ⟨w, above, inside⟩ := List.mem_flatMap.mp member
    exact (ih above).trans (suffix_of_childVisits inside)

theorem filter_skeleton_below (r : Rose.Address) (found : ev.root_.get? ptr = some sub) {below : Node}
    (place : ev.root_.get? (r ++ ptr) = some below) :
    (skeleton ptr sub v).filter (Mark.under (r ++ ptr)) =
      (visitsIn ev ptr v r).flatMap (skeleton (r ++ ptr) below) := by
  induction r generalizing below with
  | nil =>
    obtain rfl := Option.some_inj.mp (found.symm.trans place)
    rw [visitsIn, List.flatMap_singleton]
    exact filter_skeleton_self _
  | cons i r ih =>
    rw [List.cons_append, Rose.get?_cons] at place
    obtain ⟨parent, above, child⟩ := Option.bind_eq_some_iff.mp place
    have narrowed : (skeleton ptr sub v).filter (Mark.under (i :: (r ++ ptr))) =
        ((skeleton ptr sub v).filter (Mark.under (r ++ ptr))).filter (Mark.under (i :: (r ++ ptr))) := by
      rw [List.filter_filter]
      refine List.filter_congr fun mark _ => ?_
      by_cases inside : mark.under (i :: (r ++ ptr))
      · have wider : mark.under (r ++ ptr) = true :=
          Mark.under_iff.mpr ((List.suffix_cons i (r ++ ptr)).trans (Mark.under_iff.mp inside))
        simp [inside, wider]
      · simp [inside]
    rw [List.cons_append, narrowed, ih above, visitsIn, Evaluator.ori_node_of_get? above,
      List.filter_flatMap, List.flatMap_assoc]
    exact congrArg (List.flatMap · (visitsIn ev ptr v r)) (funext fun loops => filter_skeleton_child child)

theorem op_mem_skeleton_iff (r : Rose.Address) (found : ev.root_.get? ptr = some sub)
    (op_node : ev.IsOp (r ++ ptr)) :
    Mark.op (r ++ ptr) u ∈ skeleton ptr sub v ↔ u ∈ visitsIn ev ptr v r := by
  obtain ⟨info, cs, ops, place, kind⟩ := op_node.found
  have inside : Mark.op (r ++ ptr) u ∈ skeleton ptr sub v ↔
      Mark.op (r ++ ptr) u ∈ (skeleton ptr sub v).filter (Mark.under (r ++ ptr)) := by
    have under : (Mark.op (r ++ ptr) u).under (r ++ ptr) = true := Mark.under_iff.mpr List.suffix_rfl
    rw [List.mem_filter]
    exact (and_iff_left under).symm
  rw [inside, filter_skeleton_below r found place, List.mem_flatMap]
  have here (w : List LoopState) :
      Mark.op (r ++ ptr) u ∈ skeleton (r ++ ptr) (.mk info cs) w ↔ u = w := by
    simp [skeleton, kind]
  simp only [here, exists_eq_right']

end Below

section Siblings

variable {cs : List Node}

theorem reachedChild_mono (order : i ≤ j) (reached : reachedChild cs j = true) :
    reachedChild cs i = true := by
  rw [reachedChild, List.all_eq_true] at reached ⊢
  exact fun c member => reached c ((List.take_sublist_take_left order).subset member)

theorem sublist_tileSkeleton {k : Nat} (child : cs[j]? = some cj) (reached : reachedChild cs j = true) :
    (skeleton ((k + j) :: ptr) cj loops).Sublist (tileSkeleton ptr k cs loops) := by
  have filtered := @filter_tileSkeleton ptr loops cs k j cj child
  rw [if_pos reached] at filtered
  exact filtered ▸ List.filter_sublist

theorem sublist_scopeSkeleton {k : Nat} (child : cs[j]? = some cj) :
    (skeleton ((k + j) :: ptr) cj loops).Sublist (scopeSkeleton ptr k cs loops) :=
  @filter_scopeSkeleton ptr loops cs k j cj child ▸ List.filter_sublist

theorem pair_tileSkeleton (order : i < j) (child_i : cs[i]? = some ci) (child_j : cs[j]? = some cj)
    (reached : reachedChild cs j = true) (k : Nat) :
    (skeleton ((k + i) :: ptr) ci loops ++ skeleton ((k + j) :: ptr) cj loops).Sublist
      (tileSkeleton ptr k cs loops) := by
  induction cs generalizing i j k with
  | nil => cases child_i
  | cons head cs ih =>
    obtain ⟨j, rfl⟩ := Nat.exists_eq_succ_of_ne_zero (Nat.ne_zero_of_lt order)
    have plain : Node.get_type head ≠ .Scope := by
      rw [reachedChild, List.take_succ_cons, List.all_cons, Bool.and_eq_true] at reached
      exact of_decide_eq_true reached.1
    have later : reachedChild cs j = true := by
      rw [reachedChild, List.take_succ_cons, List.all_cons, Bool.and_eq_true] at reached
      exact reached.2
    have shift (n : Nat) : k + n.succ = k + 1 + n := by omega
    have both : (skeleton (k :: ptr) head loops ++ tileSkeleton ptr (k + 1) cs loops) =
        tileSkeleton ptr k (head :: cs) loops := by
      simp only [tileSkeleton, if_neg plain]
    rw [← both, shift j]
    cases i with
    | zero =>
      cases child_i
      exact (List.Sublist.refl _).append (sublist_tileSkeleton child_j later)
    | succ i =>
      rw [shift i]
      exact (ih (Nat.lt_of_succ_lt_succ order) child_i child_j later (k + 1)).trans
        (List.sublist_append_right _ _)

theorem pair_scopeSkeleton (order : i < j) (child_i : cs[i]? = some ci) (child_j : cs[j]? = some cj)
    (k : Nat) : (skeleton ((k + i) :: ptr) ci loops ++ skeleton ((k + j) :: ptr) cj loops).Sublist
      (scopeSkeleton ptr k cs loops) := by
  induction cs generalizing i j k with
  | nil => cases child_i
  | cons head cs ih =>
    obtain ⟨j, rfl⟩ := Nat.exists_eq_succ_of_ne_zero (Nat.ne_zero_of_lt order)
    have shift (n : Nat) : k + n.succ = k + 1 + n := by omega
    have both : (skeleton (k :: ptr) head loops ++ scopeSkeleton ptr (k + 1) cs loops) =
        scopeSkeleton ptr k (head :: cs) loops := by
      rw [scopeSkeleton]
    rw [← both, shift j]
    cases i with
    | zero =>
      cases child_i
      exact (List.Sublist.refl _).append (sublist_scopeSkeleton child_j)
    | succ i =>
      rw [shift i]
      exact (ih (Nat.lt_of_succ_lt_succ order) child_i child_j (k + 1)).trans
        (List.sublist_append_right _ _)

/-- In each iteration a visit of a node takes the steps of an earlier child before those of a later
    one. -/
theorem pair_skeleton (order : i < j) (child_i : sub.children[i]? = some ci)
    (child_j : sub.children[j]? = some cj) :
    ((childVisits ptr sub j loops).flatMap fun v =>
      skeleton (i :: ptr) ci v ++ skeleton (j :: ptr) cj v).Sublist (skeleton ptr sub loops) := by
  obtain ⟨⟨name_, level, mode, kind⟩, cs⟩ := sub
  rw [skeleton]
  apply List.Sublist.trans _ (List.sublist_append_left _ _)
  apply List.Sublist.trans _ (List.sublist_cons_self _ _)
  cases kind with
  | Op ops => exact List.nil_sublist _
  | Trans => exact List.nil_sublist _
  | Scope type =>
    have both := @pair_scopeSkeleton ptr loops i j ci cj cs order child_i child_j 0
    rw [Nat.zero_add, Nat.zero_add] at both
    simpa [childVisits] using both
  | Tile type dims =>
    have inside : childVisits ptr (.mk ⟨name_, level, mode, .Tile type dims⟩ cs) j loops =
        if reachedChild cs j = true then iterations ptr dims loops else [] := rfl
    rw [inside]
    by_cases reached : reachedChild cs j = true
    · rw [if_pos reached]
      apply List.Sublist.trans _ (List.sublist_append_left _ _)
      apply List.Sublist.flatMap_right
      intro v _
      have both := @pair_tileSkeleton ptr v i j ci cj cs order child_i child_j reached 0
      rw [Nat.zero_add, Nat.zero_add] at both
      exact (both.trans (List.sublist_append_left _ _)).trans (List.sublist_append_right _ _)
    · rw [if_neg reached]
      exact List.nil_sublist _

theorem pair_run (order : i < j) (found_i : ev.root_.get? (i :: ptr) = some ci)
    (found_j : ev.root_.get? (j :: ptr) = some cj) :
    ((visits ev (j :: ptr)).flatMap fun v =>
      skeleton (i :: ptr) ci v ++ skeleton (j :: ptr) cj v).Sublist (skeleton [] ev.root_ []) := by
  rw [Rose.get?_cons] at found_i found_j
  obtain ⟨parent, above, child_i⟩ := Option.bind_eq_some_iff.mp found_i
  obtain ⟨parent', above', child_j⟩ := Option.bind_eq_some_iff.mp found_j
  obtain rfl := Option.some_inj.mp (above.symm.trans above')
  have under : ((visits ev ptr).flatMap (skeleton ptr parent)).Sublist (skeleton [] ev.root_ []) :=
    filter_skeleton ptr parent above ▸ List.filter_sublist
  rw [visits, Evaluator.ori_node_of_get? above, List.flatMap_assoc]
  apply List.Sublist.trans _ under
  exact List.Sublist.flatMap_right _ fun loops _ => pair_skeleton order child_i child_j

theorem visits_sibling (order : i ≤ j) (reached : ev.Reached (j :: ptr)) :
    visits ev (i :: ptr) = visits ev (j :: ptr) := by
  rw [visits, visits]
  refine congrArg (List.flatMap · (visits ev ptr)) (funext fun loops => ?_)
  rw [childVisits, childVisits]
  cases kind : (ev.ori_node_ ptr).value.kind with
  | Op ops => rfl
  | Trans => rfl
  | Scope type => rfl
  | Tile type dims =>
    have tile : ev.get_type ptr = .Tile := by
      rw [Evaluator.get_type, Node.get_type, kind]
      rfl
    have later := reached.1 tile
    simp only [later, reachedChild_mono order later, if_true]

end Siblings

end LoopNest

section Order

open LoopNest

variable {ev : Evaluator} {state : EvalState} {tree : EvaTree} {t : Tally} {ptr : NodePtr}
  {v w u u' : List LoopState} {i j : Nat} {q q' : Rose.Address}

theorem Evaluator.Evaluated.before (evaluated : ev.Evaluated state tree t) {op op' : NodePtr}
    (first : ListOrder.Before (skeleton [] ev.root_ []) (Mark.op op u) (Mark.op op' u')) :
    Before t.log (op, u) (op', u') := by
  rw [Before, opOrder_eq, evaluated.marks]
  exact first.filterMap rfl rfl

variable (order : i < j) (first : ev.IsOp (q ++ i :: ptr)) (second : ev.IsOp (q' ++ j :: ptr))
  (in_v : u ∈ visitsIn ev (i :: ptr) v q) (in_w : u' ∈ visitsIn ev (j :: ptr) w q')

include order first second in_v in_w

/-- In one iteration of their common loops the visits of an Op below an earlier child come before those
    of an Op below a later child. -/
theorem before_of_same (evaluated : ev.Evaluated state tree t) (same : v = w)
    (shared : v ∈ visits ev (j :: ptr)) : Before t.log (q ++ i :: ptr, u) (q' ++ j :: ptr, u') := by
  obtain ⟨ci, found_i⟩ := Option.isSome_iff_exists.mp (Evaluator.isSome_get?_above first.1)
  obtain ⟨cj, found_j⟩ := Option.isSome_iff_exists.mp (Evaluator.isSome_get?_above second.1)
  have at_first := (op_mem_skeleton_iff q found_i first).mpr in_v
  have at_second := (op_mem_skeleton_iff q' found_j second).mpr in_w
  apply evaluated.before
  apply ListOrder.Before.mono _ (pair_run order found_i found_j)
  exact ListOrder.before_flatMap shared (ListOrder.before_append at_first (same ▸ at_second))

/-- All visits in an earlier iteration of their common loops come before those in a later one. -/
theorem after_of_later (evaluated : ev.Evaluated state tree t)
    (later : ListOrder.Before (visits ev (j :: ptr)) w v) :
    Before t.log (q' ++ j :: ptr, u') (q ++ i :: ptr, u) := by
  obtain ⟨ci, found_i⟩ := Option.isSome_iff_exists.mp (Evaluator.isSome_get?_above first.1)
  obtain ⟨cj, found_j⟩ := Option.isSome_iff_exists.mp (Evaluator.isSome_get?_above second.1)
  have at_first := (op_mem_skeleton_iff q found_i first).mpr in_v
  have at_second := (op_mem_skeleton_iff q' found_j second).mpr in_w
  apply evaluated.before
  apply ListOrder.Before.mono _ (pair_run order found_i found_j)
  exact later.flatMap (List.mem_append_right _ at_second) (List.mem_append_left _ at_first)

omit order first second in_v in_w

theorem count_opOrder (op : NodePtr) (log : List Event) :
    (opOrder log).count (op, u) = (opLoops op log).count u := by
  induction log with
  | nil => rfl
  | cons event log ih =>
    cases event with
    | opCharge eva loops input_dm output_dm =>
      by_cases here : eva = op
      · subst here
        simp only [opOrder, opLoops, List.filterMap_cons, if_true] at ih ⊢
        rw [List.count_cons, List.count_cons, ih]
        simp [Prod.ext_iff]
      · simp only [opOrder, opLoops, List.filterMap_cons, if_neg here] at ih ⊢
        rw [List.count_cons, ih]
        simp [here]
    | enter => exact ih
    | charge => exact ih
    | row => exact ih
    | compute => exact ih
    | leave => exact ih

theorem Evaluator.Evaluated.count_le_one (evaluated : ev.Evaluated state tree t) {op : NodePtr}
    (op_node : ev.IsOp op) (reached : ev.Reached op) (u : List LoopState) :
    (opOrder t.log).count (op, u) ≤ 1 := by
  rw [count_opOrder, evaluated.opLoops op_node]
  exact List.nodup_iff_count_le_one.mp (visits_nodup evaluated.accepted.leaves op_node.1 reached) u

end Order

end TileExp.Analysis
