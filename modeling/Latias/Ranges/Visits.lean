import Latias.Offsets.Chain
import Latias.Ranges.Charges

/-! Where `addCurrentTensor` is called, and the ranges it computes there. -/

namespace TileExp.Analysis

open Checked LoopNest

variable {ev : Evaluator} {ctx : PerfContext} {node : NodePtr} {loops : List LoopState}
  {is_input : Bool} {dim_name : String} {state : EvalState} {tree : EvaTree} {t : Tally}

def callLoops (node : NodePtr) (is_input : Bool) (marks : List Mark) : List (List LoopState) :=
  marks.filterMap fun mark => match mark with
    | .charge eva input loops => if eva = node ∧ input = is_input then some loops else none
    | _ => none

theorem calls_map_fst (t : Tally) :
    (calls node is_input t.log).map Prod.fst = callLoops node is_input (marks t) := by
  rw [calls, callLoops, marks, List.map_filterMap, List.filterMap_map]
  congr 1
  funext event
  cases event with
  | charge eva input loops cs =>
    simp only [Function.comp, Event.mark]
    split <;> rfl
  | enter => rfl
  | opCharge => rfl
  | row => rfl
  | compute => rfl
  | leave => rfl

theorem callLoops_append (a b : List Mark) :
    callLoops node is_input (a ++ b) = callLoops node is_input a ++ callLoops node is_input b :=
  List.filterMap_append

theorem callLoops_eq_nil {marks : List Mark} (others : ∀ mark ∈ marks, mark.node ≠ node) :
    callLoops node is_input marks = [] := by
  rw [callLoops, List.filterMap_eq_nil_iff]
  intro mark member
  have other := others mark member
  cases mark with
  | charge eva input loops => exact if_neg fun same => other same.1
  | enter => rfl
  | op => rfl
  | row => rfl
  | compute => rfl
  | leave => rfl

theorem callLoops_under (marks : List Mark) :
    callLoops node is_input (marks.filter (Mark.under node)) = callLoops node is_input marks := by
  induction marks with
  | nil => rfl
  | cons mark marks ih =>
    by_cases under : mark.under node = true
    · rw [List.filter_cons_of_pos under, ← List.singleton_append, callLoops_append, ih,
        ← callLoops_append, List.singleton_append]
    · have other : callLoops node is_input [mark] = [] := by
        apply callLoops_eq_nil
        intro m member same
        cases List.mem_singleton.mp member
        exact under (Mark.under_iff.mpr (same ▸ List.suffix_rfl))
      rw [List.filter_cons_of_neg under, ih, ← List.singleton_append, callLoops_append, other,
        List.nil_append]

theorem callLoops_firstMarks :
    callLoops node is_input (firstMarks node loops) = if isFirst node loops then [loops] else [] := by
  rw [firstMarks]
  split
  · cases is_input <;> simp [callLoops]
  · rfl

theorem callLoops_skeleton {sub : Node} (found : ev.root_.get? node = some sub)
    (tile : ev.get_type node = .Tile) :
    callLoops node is_input (skeleton node sub loops) =
      (iterations node (ev.loopnests_ node) loops).filter (isFirst node) := by
  rw [Evaluator.get_type, Evaluator.ori_node_of_get? found] at tile
  rw [Evaluator.loopnests_, Evaluator.ori_node_of_get? found]
  obtain ⟨⟨name_, level, mode, kind⟩, cs⟩ := sub
  cases kind with
  | Tile type dims =>
    have inside : ∀ its : List (List LoopState), callLoops node is_input (its.flatMap fun loops =>
        firstMarks node loops ++ (tileSkeleton node 0 cs loops ++ [.row node (tileRow node 0 cs [])])) =
          its.filter (isFirst node) := by
      intro its
      induction its with
      | nil => rfl
      | cons inner its ih =>
        have children : callLoops node is_input (tileSkeleton node 0 cs inner) = [] := by
          apply callLoops_eq_nil
          intro mark member same
          obtain ⟨j, _, below⟩ := tileSkeleton_later 0 cs mark member
          rw [same] at below
          exact absurd below.length_le (by simp)
        have row : callLoops node is_input [.row node (tileRow node 0 cs [])] = [] := rfl
        rw [List.flatMap_cons, callLoops_append, callLoops_append, callLoops_append, children, row,
          callLoops_firstMarks, ih]
        by_cases first : isFirst node inner
        · simp [first]
        · simp [first]
    have ends : callLoops node is_input [.compute node] = [] ∧
        callLoops node is_input [.leave node] = [] := ⟨rfl, rfl⟩
    rw [skeleton, callLoops_append, ← List.singleton_append, callLoops_append]
    simp only
    rw [callLoops_append, inside, ends.1, ends.2, List.append_nil, List.append_nil]
    rfl
  | Op ops => cases tile
  | Trans => cases tile
  | Scope type => cases tile

def Evaluator.Running (ev : Evaluator) (node : NodePtr) : Prop :=
  ∀ loop ∈ ev.loopnests_ node, ∀ loops, loop.start < loopEnd node loop loops

theorem callLoops_run (found : (ev.root_.get? node).isSome) (tile : ev.get_type node = .Tile) :
    callLoops node is_input (skeleton [] ev.root_ []) =
      (visits ev node).flatMap fun loops =>
        (iterations node (ev.loopnests_ node) loops).filter (isFirst node) := by
  obtain ⟨sub, found⟩ := Option.isSome_iff_exists.mp found
  rw [← callLoops_under, filter_skeleton node sub found]
  generalize visits ev node = outer
  induction outer with
  | nil => rfl
  | cons loops outer ih =>
    rw [List.flatMap_cons, callLoops_append, callLoops_skeleton found tile, ih, List.flatMap_cons]

/-- A run makes one call for a table in each visit of its Tile. -/
theorem callLoops_visits (found : (ev.root_.get? node).isSome) (tile : ev.get_type node = .Tile)
    (running : ev.Running node) :
    callLoops node is_input (skeleton [] ev.root_ []) =
      (visits ev node).map (firstIteration node (ev.loopnests_ node)) := by
  rw [callLoops_run found tile]
  have visited := fun loops member => @node_of_mem_visits ev loops node member
  generalize visits ev node = outer at visited ⊢
  induction outer with
  | nil => rfl
  | cons loops outer ih =>
    have first : isFirst node loops = true := isFirst_of_outside fun loop inside =>
      (visited loops List.mem_cons_self inside).2
    rw [List.flatMap_cons, filter_isFirst _ running first,
      ih fun loops member => visited loops (List.mem_cons_of_mem _ member)]
    rfl

theorem Evaluator.Evaluated.call_in_visit (evaluated : ev.Evaluated state tree t)
    (found : (ev.root_.get? node).isSome) (tile : ev.get_type node = .Tile)
    (member : loops ∈ (Analysis.calls node is_input t.log).map Prod.fst) :
    ∃ outer ∈ visits ev node, loops = firstIteration node (ev.loopnests_ node) outer := by
  rw [calls_map_fst, evaluated.marks, callLoops_run found tile] at member
  obtain ⟨outer, visited, inside⟩ := List.mem_flatMap.mp member
  exact ⟨outer, visited, eq_firstIteration inside⟩

theorem Evaluator.Evaluated.calls (evaluated : ev.Evaluated state tree t)
    (found : (ev.root_.get? node).isSome) (tile : ev.get_type node = .Tile)
    (running : ev.Running node) (is_input : Bool) :
    (calls node is_input t.log).map Prod.fst =
      (visits ev node).map (firstIteration node (ev.loopnests_ node)) := by
  rw [calls_map_fst, evaluated.marks, callLoops_visits found tile running]

end TileExp.Analysis
