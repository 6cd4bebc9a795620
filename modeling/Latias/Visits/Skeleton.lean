import Latias.Visits.Frame
import Latias.Analysis.TraversalOrder

/-! Which steps a completed run takes, and in which order: it depends on the tree alone. -/

namespace TileExp.Analysis

open Checked

/-- An event without its data. A row keeps the children it was built from. -/
inductive Mark where
  | enter (node : NodePtr) (loops : List LoopState)
  | charge (node : NodePtr) (is_input : Bool) (loops : List LoopState)
  | op (node : NodePtr) (loops : List LoopState)
  | row (node : NodePtr) (origins : List NodePtr)
  | compute (node : NodePtr)
  | leave (node : NodePtr)
  deriving DecidableEq

def Event.mark : Event → Mark
  | enter node _ loops _ => .enter node loops
  | charge eva is_input loops _ => .charge eva is_input loops
  | opCharge eva loops _ _ => .op eva loops
  | row eva entries => .row eva (entries.map Latency.origin)
  | compute eva _ => .compute eva
  | leave node _ => .leave node

namespace LoopNest

def iterations (node : NodePtr) : List Descriptor → List LoopState → List (List LoopState)
  | [], loops => [loops]
  | loop :: rest, loops =>
    (List.range (loopEnd node loop loops - loop.start).toNat).flatMap fun i =>
      iterations node rest (loopState node loop (loopEnd node loop loops) i :: loops)

def scopeRow (ptr : NodePtr) : Nat → List Node → List NodePtr
  | _, [] => []
  | i, c :: cs =>
    if Node.get_type c = .Trans then scopeRow ptr (i + 1) cs
    else (i :: ptr) :: scopeRow ptr (i + 1) cs

def tileRow (ptr : NodePtr) : Nat → List Node → List NodePtr → List NodePtr
  | _, [], row => row
  | i, c :: cs, row =>
    if Node.get_type c = .Scope then scopeRow (i :: ptr) 0 c.children
    else tileRow ptr (i + 1) cs (row ++ [i :: ptr])

def firstMarks (node : NodePtr) (loops : List LoopState) : List Mark :=
  if isFirst node loops then [.charge node true loops, .charge node false loops] else []

mutual

def skeleton (ptr : NodePtr) : Node → List LoopState → List Mark
  | .mk info cs => fun loops =>
    .enter ptr loops :: (match info.kind with
      | .Op _ => [.op ptr loops]
      | .Trans => []
      | .Scope _ => scopeSkeleton ptr 0 cs loops
      | .Tile _ dims =>
        ((iterations ptr dims loops).flatMap fun loops => firstMarks ptr loops ++
          (tileSkeleton ptr 0 cs loops ++ [.row ptr (tileRow ptr 0 cs [])])) ++ [.compute ptr]) ++
      [.leave ptr]

def scopeSkeleton (ptr : NodePtr) : Nat → List Node → List LoopState → List Mark
  | _, [] => fun _ => []
  | i, c :: cs => fun loops => skeleton (i :: ptr) c loops ++ scopeSkeleton ptr (i + 1) cs loops

def tileSkeleton (ptr : NodePtr) : Nat → List Node → List LoopState → List Mark
  | _, [] => fun _ => []
  | i, c :: cs => fun loops => skeleton (i :: ptr) c loops ++
    if Node.get_type c = .Scope then [] else tileSkeleton ptr (i + 1) cs loops

end

variable {ctx : PerfContext} {node ptr : NodePtr} {loops : List LoopState} {t t' : Tally}

def marks (t : Tally) : List Mark := t.log.map Event.mark

@[simp] theorem marks_record (event : Event) : marks (t.record event) = marks t ++ [event.mark] := by
  simp [marks, Tally.record]

theorem enterFirst_marks (call : enterFirst ctx node loops t = .ok t') :
    marks t' = marks t ++ firstMarks node loops := by
  unfold enterFirst at call
  split at call
  · next first =>
    obtain ⟨ins, outs, tile, trans, entered⟩ := enterTile_eq_ok call
    rw [firstMarks, if_pos first, marks, entered.result]
    simp [marks, Event.mark]
  · next later =>
    cases call
    rw [firstMarks, if_neg later, List.append_nil]

theorem finishTile_marks (call : PerfAnalysis.finishTile ctx node t = .ok t') :
    marks t' = marks t ++ [.compute node] := by
  obtain ⟨latency, _, rfl⟩ := finishTile_eq_ok call
  split
  · exact marks_record (.compute node (t.latency_vec_ node))
  · exact marks_record (.compute node (t.latency_vec_ node))

theorem tileLoops_marks {body : List LoopState → Tally → Exec Tally}
    {inside : List LoopState → List Mark}
    (inner : ∀ loops t t', body loops t = .ok t' → marks t' = marks t ++ inside loops)
    (dims : List Descriptor) (loops : List LoopState) (t t' : Tally)
    (run : tileLoops ctx node body dims loops t = .ok t') :
    marks t' = marks t ++
      (iterations node dims loops).flatMap fun loops => firstMarks node loops ++ inside loops := by
  induction dims generalizing loops t t' with
  | nil =>
    rw [tileLoops] at run
    obtain ⟨mid, first, second⟩ := bind_eq_ok.mp run
    rw [inner loops mid t' second, enterFirst_marks first]
    simp [iterations]
  | cons loop rest ih =>
    rw [tileLoops] at run
    obtain ⟨_, _, run⟩ := bind_eq_ok.mp run
    obtain ⟨mid, looped, result⟩ := bind_eq_ok.mp run
    cases result
    rw [iterations, List.flatMap_assoc]
    refine foldlM_induction looped (fun done t' => marks t' = marks t ++ done.flatMap _) ?_ ?_
    · exact (List.append_nil _).symm
    · intro done i rest' before after _ known step
      obtain ⟨after', nested, result⟩ := bind_eq_ok.mp step
      cases result
      change marks after' = _
      rw [ih _ before after' nested, known, List.flatMap_append, List.append_assoc]
      simp

/-- A completed visit takes the steps of its skeleton, and a Scope leaves its row. -/
theorem visit_marks (ptr : NodePtr) (sub : Node) (found : ctx.ev.root_.get? ptr = some sub) :
    ∀ loops t t', visit ctx ptr sub loops t = .ok t' →
      marks t' = marks t ++ skeleton ptr sub loops ∧ (Node.get_type sub = .Scope →
        (t'.latency_sub_vec_ ptr).map Latency.origin = scopeRow ptr 0 sub.children) := by
  induction ptr, sub using Rose.position_induction₂
    (S := fun ptr i cs => ChildrenAt ctx.ev ptr i cs → ∀ loops t t',
      scopeChildren ctx ptr i cs loops t = .ok t' →
        marks t' = marks t ++ scopeSkeleton ptr i cs loops ∧
          (t'.latency_sub_vec_ ptr).map Latency.origin =
            (t.latency_sub_vec_ ptr).map Latency.origin ++ scopeRow ptr i cs)
    (T := fun ptr i cs => ChildrenAt ctx.ev ptr i cs → ∀ loops t t',
      tileChildren ctx ptr i cs loops t = .ok t' →
        marks t' = marks t ++ tileSkeleton ptr i cs loops ∧
          (t'.latency_sub_vec_ ptr).map Latency.origin =
            tileRow ptr i cs ((t.latency_sub_vec_ ptr).map Latency.origin)) with
  | node ptr info cs scope tile =>
    intro loops t t' run
    have placed := childrenAt_zero found
    obtain ⟨mid, inside, result⟩ := bind_eq_ok.mp run
    cases result
    have entered := marks_record (t := t) (.enter ptr ptr loops t.dim_skew)
    rw [marks_record]
    obtain ⟨name_, level, mode, kind⟩ := info
    cases kind with
    | Op ops =>
      cases inside
      refine ⟨?_, fun kind => by cases kind⟩
      change marks ((t.record (.enter ptr ptr loops t.dim_skew)).record (.opCharge ptr loops _ _)) ++
        [_] = _
      rw [marks_record, entered, skeleton]
      simp [Event.mark]
    | Trans =>
      rw [transTally_eq_ok inside]
      refine ⟨?_, fun kind => by cases kind⟩
      change marks (t.record (.enter ptr ptr loops t.dim_skew)) ++ [_] = _
      rw [entered, skeleton]
      simp [Event.mark]
    | Scope type =>
      obtain ⟨after, children, finish⟩ := bind_eq_ok.mp inside
      obtain ⟨taken, row⟩ := scope placed loops _ after children
      have known : marks ((t.record (.enter ptr ptr loops t.dim_skew)).setRow ptr []) =
          marks t ++ [.enter ptr loops] := entered
      unfold finishScope at finish
      split at finish
      · cases finish
      · cases finish
        refine ⟨?_, fun _ => row.trans ?_⟩
        · change marks after ++ [_] = _
          rw [taken, known, skeleton]
          simp [Event.mark]
        · simp [Tally.setRow]
    | Tile type dims =>
      cases dims with
      | nil => cases inside
      | cons loop rest =>
        obtain ⟨after, nested, finish⟩ := bind_eq_ok.mp inside
        refine ⟨?_, fun kind => by cases kind⟩
        have inner : ∀ loops t t', (do
            let t ← tileChildren ctx ptr 0 cs loops (t.setRow ptr [])
            PerfAnalysis.pushRow ptr t) = .ok t' →
              marks t' = marks t ++ (tileSkeleton ptr 0 cs loops ++
                [.row ptr (tileRow ptr 0 cs [])]) := by
          intro loops t t' body
          obtain ⟨mid, children, push⟩ := bind_eq_ok.mp body
          obtain ⟨taken, row⟩ := tile placed loops _ mid children
          obtain ⟨_, rfl⟩ := pushRow_eq_ok push
          rw [marks_record]
          change marks mid ++ _ = marks t ++ _
          rw [taken, Event.mark, row, List.append_assoc]
          simp [Tally.setRow, marks]
        rw [finishTile_marks finish, tileLoops_marks inner _ _ _ _ nested, entered, skeleton]
        simp [Event.mark]
  | first_nil ptr i =>
    rename_i placed loops t t' run
    cases run
    exact ⟨(List.append_nil _).symm, (List.append_nil _).symm⟩
  | first_cons ptr i c cs first rest =>
    rename_i placed loops t t' run
    rw [scopeChildren] at run
    obtain ⟨mid, child, others⟩ := bind_eq_ok.mp run
    obtain ⟨taken, -⟩ := first placed.head loops t mid child
    have kept : mid.latency_sub_vec_ ptr = t.latency_sub_vec_ ptr :=
      congrArg NodeData.latency_sub_vec_ (visit_keeps (i :: ptr) c loops t mid child ptr
        (fun inside => absurd inside.length_le (by simp)))
    obtain ⟨rest_taken, row⟩ := rest placed.tail loops _ t' others
    rw [Evaluator.get_type, Evaluator.ori_node_of_get? placed.head] at rest_taken row
    rw [scopeSkeleton, scopeRow]
    by_cases trans : Node.get_type c = .Trans
    · rw [if_pos trans] at rest_taken row ⊢
      exact ⟨by rw [rest_taken, taken, List.append_assoc], by rw [row, kept]⟩
    · rw [if_neg trans] at rest_taken row ⊢
      refine ⟨?_, ?_⟩
      · rw [rest_taken]
        change marks mid ++ _ = _
        rw [taken, List.append_assoc]
      · rw [row]
        simp [Tally.setRow, Tally.latencyOf, kept]
  | second_nil ptr i =>
    rename_i placed loops t t' run
    cases run
    exact ⟨(List.append_nil _).symm, rfl⟩
  | second_cons ptr i c cs first rest =>
    rename_i placed loops t t' run
    rw [tileChildren] at run
    obtain ⟨mid, child, others⟩ := bind_eq_ok.mp run
    obtain ⟨taken, scope_row⟩ := first placed.head loops t mid child
    have kept : mid.latency_sub_vec_ ptr = t.latency_sub_vec_ ptr :=
      congrArg NodeData.latency_sub_vec_ (visit_keeps (i :: ptr) c loops t mid child ptr
        (fun inside => absurd inside.length_le (by simp)))
    rw [Evaluator.get_type, Evaluator.ori_node_of_get? placed.head] at others
    rw [tileSkeleton, tileRow]
    simp only
    by_cases scope : Node.get_type c = .Scope
    · rw [if_pos scope] at others ⊢
      cases others
      refine ⟨?_, ?_⟩
      · rw [List.append_nil]
        exact taken
      · rw [if_pos scope, ← scope_row scope]
        simp [Tally.setRow]
    · rw [if_neg scope] at others ⊢
      obtain ⟨rest_taken, row⟩ := rest placed.tail loops _ t' others
      refine ⟨?_, ?_⟩
      · rw [rest_taken]
        change marks mid ++ _ = _
        rw [taken, List.append_assoc]
      · rw [row, if_neg scope]
        simp [Tally.setRow, Tally.latencyOf, kept]

end LoopNest

end TileExp.Analysis
