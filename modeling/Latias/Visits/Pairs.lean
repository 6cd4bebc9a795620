import Latias.Analysis.OtherLinks
import Latias.Ranges.CurrentRange
import Latias.Visits.Rule

/-! Two visits of one tree, over different links. -/

namespace TileExp.Analysis

open Checked

def PerfContext.withLinks (ctx : PerfContext) (intercon_ : InterCon) : PerfContext :=
  { ctx with ev := ctx.ev.withLinks intercon_ }

theorem PerfContext.get_type_withLinks (ctx : PerfContext) (intercon_ : InterCon) (node : NodePtr) :
    (ctx.withLinks intercon_).ev.get_type node = ctx.ev.get_type node := rfl

namespace LoopNest

variable {ctx : PerfContext} {intercon_ : InterCon} {node ptr : NodePtr} {loops : List LoopState}
  {t t' u u' : Tally} {R : Tally → Tally → Prop}

/-- Every part of a visit keeps the states of both runs related. The second is over the given
    links. -/
structure Pairs (ctx : PerfContext) (intercon_ : InterCon) (R : Tally → Tally → Prop) : Prop where
  record : ∀ {t u}, R t u → ∀ event event', R (t.record event) (u.record event')
  clearRow : ∀ {t u}, R t u → ∀ node, R (t.setRow node []) (u.setRow node [])
  pushLatency : ∀ {t u}, R t u → ∀ node child,
    R (t.setRow node (t.latency_sub_vec_ node ++ [t.latencyOf child]))
      (u.setRow node (u.latency_sub_vec_ node ++ [u.latencyOf child]))
  takeRow : ∀ {t u}, R t u → ∀ node child,
    R (t.setRow node (t.latency_sub_vec_ child)) (u.setRow node (u.latency_sub_vec_ child))
  pushRow : ∀ {t u}, R t u → ∀ node,
    R (t.setRows node (t.latency_vec_ node ++ [t.latency_sub_vec_ node]))
      (u.setRows node (u.latency_vec_ node ++ [u.latency_sub_vec_ node]))
  clearSkew : ∀ {t u}, R t u → ∀ node dim_name,
    R (t.clearSkew node dim_name) (u.clearSkew node dim_name)
  advanceSkew : ∀ {t u}, R t u → ∀ node dim_name offset,
    R (t.advanceSkew node dim_name offset) (u.advanceSkew node dim_name offset)
  restoreSkew : ∀ {t u}, R t u → ∀ node dim_name,
    R (t.restoreSkew node dim_name) (u.restoreSkew node dim_name)
  op : ∀ {t u}, R t u → ∀ node loops, R (PerfAnalysis.opTally ctx (walkAt ctx node loops) t)
    (PerfAnalysis.opTally (ctx.withLinks intercon_) (walkAt (ctx.withLinks intercon_) node loops) u)
  transfer : ∀ {t u t' u'}, R t u → ∀ node loops,
    PerfAnalysis.transTally ctx (walkAt ctx node loops) t = .ok t' →
    PerfAnalysis.transTally (ctx.withLinks intercon_)
      (walkAt (ctx.withLinks intercon_) node loops) u = .ok u' → R t' u'
  enterTile : ∀ {t u t' u'}, R t u → ∀ node loops, (ctx.ev.root_.get? node).isSome →
    (∀ loop ∈ loops, InProgress ctx.ev loop) →
    PerfAnalysis.enterTile ctx (walkAt ctx node loops) t = .ok t' →
    PerfAnalysis.enterTile (ctx.withLinks intercon_)
      (walkAt (ctx.withLinks intercon_) node loops) u = .ok u' → R t' u'
  finishTile : ∀ {t u t' u'}, R t u → ∀ node, ctx.ev.get_type node = .Tile →
    PerfAnalysis.finishTile ctx node t = .ok t' →
    PerfAnalysis.finishTile (ctx.withLinks intercon_) node u = .ok u' → R t' u'

namespace Pairs

theorem finishScope (pairs : Pairs ctx intercon_ R) (related : R t u)
    (call : LoopNest.finishScope node t = .ok t') (call' : LoopNest.finishScope node u = .ok u') :
    R t' u' := by
  unfold LoopNest.finishScope at call call'
  split at call
  · cases call
  · cases call
    split at call'
    · cases call'
    · cases call'
      exact pairs.pushRow related node

theorem tileLoops (pairs : Pairs ctx intercon_ R) (found : (ctx.ev.root_.get? node).isSome)
    {body body' : List LoopState → Tally → Exec Tally}
    (inner : ∀ loops t u t' u', (∀ loop ∈ loops, InProgress ctx.ev loop) → R t u →
      body loops t = .ok t' → body' loops u = .ok u' → R t' u')
    (dims : List Descriptor) (declared : ∀ loop ∈ dims, loop.name_ ∈ ctx.ev.dims node)
    (loops : List LoopState) (t u t' u' : Tally) (inside : ∀ loop ∈ loops, InProgress ctx.ev loop)
    (related : R t u) (run : LoopNest.tileLoops ctx node body dims loops t = .ok t')
    (run' : LoopNest.tileLoops (ctx.withLinks intercon_) node body' dims loops u = .ok u') :
    R t' u' := by
  induction dims generalizing loops t u t' u' with
  | nil =>
    rw [LoopNest.tileLoops] at run run'
    obtain ⟨mid, first, second⟩ := bind_eq_ok.mp run
    obtain ⟨mid', first', second'⟩ := bind_eq_ok.mp run'
    refine inner loops mid mid' t' u' inside ?_ second second'
    unfold enterFirst at first first'
    by_cases fresh : isFirst node loops = true
    · rw [if_pos fresh] at first first'
      exact pairs.enterTile related node loops found inside first first'
    · rw [if_neg fresh] at first first'
      cases first
      cases first'
      exact related
  | cons loop rest ih =>
    rw [LoopNest.tileLoops] at run run'
    obtain ⟨_, _, run⟩ := bind_eq_ok.mp run
    obtain ⟨_, _, run'⟩ := bind_eq_ok.mp run'
    obtain ⟨mid, iterations, result⟩ := bind_eq_ok.mp run
    obtain ⟨mid', iterations', result'⟩ := bind_eq_ok.mp run'
    cases result
    cases result'
    apply pairs.restoreSkew
    apply foldlM_pair iterations iterations' (pairs.clearSkew related node loop.name_)
    intro i member before before' after after' earlier step step'
    obtain ⟨done, nested, result⟩ := bind_eq_ok.mp step
    obtain ⟨done', nested', result'⟩ := bind_eq_ok.mp step'
    cases result
    cases result'
    apply pairs.advanceSkew
    refine ih (fun l member => declared l (List.mem_cons_of_mem loop member)) _ before before' done
      done' ?_ earlier nested nested'
    intro l among
    rcases List.mem_cons.mp among with rfl | among
    · exact inProgress_loopState (declared loop List.mem_cons_self) (List.mem_range.mp member)
    · exact inside l among

theorem visit (pairs : Pairs ctx intercon_ R) (ptr : NodePtr) (sub : Node)
    (found : ctx.ev.root_.get? ptr = some sub) :
    ∀ loops t u t' u', (∀ loop ∈ loops, InProgress ctx.ev loop) → R t u →
      LoopNest.visit ctx ptr sub loops t = .ok t' →
      LoopNest.visit (ctx.withLinks intercon_) ptr sub loops u = .ok u' → R t' u' := by
  induction ptr, sub using Rose.position_induction₂
    (S := fun ptr i cs => ChildrenAt ctx.ev ptr i cs → ∀ loops t u t' u',
      (∀ loop ∈ loops, InProgress ctx.ev loop) → R t u → scopeChildren ctx ptr i cs loops t = .ok t' →
        scopeChildren (ctx.withLinks intercon_) ptr i cs loops u = .ok u' → R t' u')
    (T := fun ptr i cs => ChildrenAt ctx.ev ptr i cs → ∀ loops t u t' u',
      (∀ loop ∈ loops, InProgress ctx.ev loop) → R t u → tileChildren ctx ptr i cs loops t = .ok t' →
        tileChildren (ctx.withLinks intercon_) ptr i cs loops u = .ok u' → R t' u') with
  | node ptr info cs scope tile =>
    intro loops t u t' u' inside related run run'
    have placed := childrenAt_zero found
    have present : (ctx.ev.root_.get? ptr).isSome := by rw [found]; rfl
    have value := Evaluator.ori_node_of_get? found
    rw [LoopNest.visit] at run run'
    obtain ⟨mid, visited, result⟩ := bind_eq_ok.mp run
    obtain ⟨mid', visited', result'⟩ := bind_eq_ok.mp run'
    cases result
    cases result'
    apply pairs.record
    have entered := pairs.record related (.enter ptr ptr loops t.dim_skew)
      (.enter ptr ptr loops u.dim_skew)
    obtain ⟨name_, level, mode, kind⟩ := info
    cases kind with
    | Op ops =>
      cases visited
      cases visited'
      exact pairs.op entered ptr loops
    | Trans => exact pairs.transfer entered ptr loops visited visited'
    | Scope type =>
      obtain ⟨after, children, finish⟩ := bind_eq_ok.mp visited
      obtain ⟨after', children', finish'⟩ := bind_eq_ok.mp visited'
      have row := pairs.clearRow entered ptr
      exact pairs.finishScope (scope placed loops _ _ after after' inside row children children')
        finish finish'
    | Tile type dims =>
      cases dims with
      | nil => cases visited
      | cons loop rest =>
        obtain ⟨after, nested, finish⟩ := bind_eq_ok.mp visited
        obtain ⟨after', nested', finish'⟩ := bind_eq_ok.mp visited'
        have kind_eq : ctx.ev.get_type ptr = .Tile := by
          rw [Evaluator.get_type, value]
          rfl
        have declared : ∀ l ∈ loop :: rest, l.name_ ∈ ctx.ev.dims ptr := by
          intro l member
          rw [Evaluator.dims, Evaluator.loopnests_, value]
          exact List.mem_map_of_mem member
        refine pairs.finishTile ?_ ptr kind_eq finish finish'
        refine pairs.tileLoops present ?_ (loop :: rest) declared loops _ _ after after' inside entered
          nested nested'
        intro loops t u t' u' inside related body body'
        obtain ⟨visited, children, push⟩ := bind_eq_ok.mp body
        obtain ⟨visited', children', push'⟩ := bind_eq_ok.mp body'
        have row := pairs.clearRow related ptr
        have pushed := pairs.pushRow (tile placed loops _ _ visited visited' inside row children
          children') ptr
        obtain ⟨_, rfl⟩ := pushRow_eq_ok push
        obtain ⟨_, rfl⟩ := pushRow_eq_ok push'
        exact pairs.record pushed _ _
  | first_nil ptr i =>
    rename_i placed loops t u t' u' inside related run run'
    cases run
    cases run'
    exact related
  | first_cons ptr i c cs first rest =>
    rename_i placed loops t u t' u' inside related run run'
    rw [scopeChildren] at run run'
    obtain ⟨mid, child, others⟩ := bind_eq_ok.mp run
    obtain ⟨mid', child', others'⟩ := bind_eq_ok.mp run'
    have after := first placed.head loops t u mid mid' inside related child child'
    refine rest placed.tail loops _ _ t' u' inside ?_ others others'
    rw [PerfContext.get_type_withLinks]
    by_cases trans : ctx.ev.get_type (i :: ptr) = .Trans
    · rw [if_pos trans, if_pos trans]
      exact after
    · rw [if_neg trans, if_neg trans]
      exact pairs.pushLatency after ptr (i :: ptr)
  | second_nil ptr i =>
    rename_i placed loops t u t' u' inside related run run'
    cases run
    cases run'
    exact related
  | second_cons ptr i c cs first rest =>
    rename_i placed loops t u t' u' inside related run run'
    rw [tileChildren] at run run'
    obtain ⟨mid, child, others⟩ := bind_eq_ok.mp run
    obtain ⟨mid', child', others'⟩ := bind_eq_ok.mp run'
    have after := first placed.head loops t u mid mid' inside related child child'
    rw [PerfContext.get_type_withLinks] at others'
    by_cases scope : ctx.ev.get_type (i :: ptr) = .Scope
    · rw [if_pos scope] at others others'
      cases others
      cases others'
      exact pairs.takeRow after ptr (i :: ptr)
    · rw [if_neg scope] at others others'
      exact rest placed.tail loops _ _ t' u' inside (pairs.pushLatency after ptr (i :: ptr)) others
        others'

end Pairs

end LoopNest

end TileExp.Analysis
