import Latias.Visits.PathNest
import Latias.Visits.Rule

/-! The faults that a visit can stop with are those of its parts, at the nodes it reaches. -/

namespace TileExp.Analysis

open Checked

structure Allows (p : Fault → Prop) : Prop where
  assertion : ∀ msg, p (.assertion msg)
  outOfRange : p .outOfRange

theorem Allows.assert {p : Fault → Prop} (allows : Allows p) (cond : Prop) [Decidable cond]
    (msg : String) : Stops p (tileexpAssert cond msg) := by
  unfold tileexpAssert
  split
  · exact stops_ok ()
  · exact stops_error (allows.assertion msg)

namespace LoopNest

variable {ctx : PerfContext} {node ptr : NodePtr} {p : Fault → Prop} {Inv : Tally → Prop}

/-- The faults of the three parts of a visit that read other nodes, links and levels, in the states
    that satisfy what all parts keep. -/
structure PartsStop (ctx : PerfContext) (p : Fault → Prop) (Inv : Tally → Prop) : Prop
    extends Allows p where
  keeps : Parts ctx fun t t' => Inv t → Inv t'
  transfer : ∀ node loops t, Inv t → (ctx.ev.root_.get? node).isSome → ctx.ev.Reached node →
    ctx.ev.get_type node = .Trans → Stops p (PerfAnalysis.transTally ctx (walkAt ctx node loops) t)
  enterTile : ∀ node loops t, Inv t → (ctx.ev.root_.get? node).isSome → ctx.ev.Reached node →
    ctx.ev.get_type node = .Tile → Stops p (PerfAnalysis.enterTile ctx (walkAt ctx node loops) t)
  finishTile : ∀ node t, Inv t → (ctx.ev.root_.get? node).isSome → ctx.ev.Reached node →
    ctx.ev.get_type node = .Tile → Stops p (PerfAnalysis.finishTile ctx node t)

theorem reachedChild_succ {cs : List Node} {i : Nat} {c : Node} (child : cs[i]? = some c) :
    reachedChild cs (i + 1) = (reachedChild cs i && decide (Node.get_type c ≠ .Scope)) := by
  rw [reachedChild, List.take_add_one, child, reachedChild]
  simp

namespace PartsStop

theorem body (parts : PartsStop ctx p Inv) (tile : ctx.ev.get_type ptr = .Tile) {cs : List Node}
    (placed : ChildrenAt ctx.ev ptr 0 cs) (loops : List LoopState) (t t' : Tally)
    (run : (do
      let t ← tileChildren ctx ptr 0 cs loops (t.setRow ptr [])
      PerfAnalysis.pushRow ptr t) = .ok t') : Inv t → Inv t' := by
  obtain ⟨mid, children, push⟩ := bind_eq_ok.mp run
  have row := parts.keeps.setRow t ptr []
  have inner := parts.keeps.tileChildren placed loops _ mid children
  exact fun start => parts.keeps.pushRow mid t' ptr tile push (inner (row start))

theorem tileLoops (parts : PartsStop ctx p Inv) (found : (ctx.ev.root_.get? node).isSome)
    (reached : ctx.ev.Reached node) (tile : ctx.ev.get_type node = .Tile)
    {body : List LoopState → Tally → Exec Tally} (inner : ∀ loops t, Inv t → Stops p (body loops t))
    (kept : ∀ loops t t', body loops t = .ok t' → Inv t → Inv t')
    (dims : List Descriptor) (loops : List LoopState) (t : Tally) (start : Inv t) :
    Stops p (LoopNest.tileLoops ctx node body dims loops t) := by
  induction dims generalizing loops t with
  | nil =>
    rw [LoopNest.tileLoops]
    unfold enterFirst
    split
    · apply (parts.enterTile node loops t start found reached tile).bind
      intro t' entered
      exact inner loops t' (parts.keeps.enterTile t t' node loops tile entered start)
    · exact inner loops t start
  | cons loop rest ih =>
    rw [LoopNest.tileLoops]
    apply (parts.toAllows.assert _ _).bind
    intro _ _
    have cleared := parts.keeps.clearSkew t node loop.name_ start
    apply (stops_foldlM Inv ?_ ?_ _ cleared).bind
    · intro t' _
      exact stops_ok _
    · intro i _ before held
      apply (ih _ before held).bind
      intro after _
      exact stops_ok _
    · intro i _ before after held step
      obtain ⟨inside, nested, result⟩ := bind_eq_ok.mp step
      cases result
      have iterated := parts.keeps.tileLoops tile kept rest _ before inside nested held
      exact parts.keeps.advanceSkew inside node loop.name_ _ iterated

theorem visit (parts : PartsStop ctx p Inv) (ptr : NodePtr) (sub : Node)
    (found : ctx.ev.root_.get? ptr = some sub) (reached : ctx.ev.Reached ptr) :
    ∀ loops t, Inv t → Stops p (LoopNest.visit ctx ptr sub loops t) := by
  induction ptr, sub using Rose.position_induction₂
    (S := fun ptr i cs => ChildrenAt ctx.ev ptr i cs → ctx.ev.Reached ptr →
      ctx.ev.get_type ptr ≠ .Tile → ∀ loops t, Inv t → Stops p (scopeChildren ctx ptr i cs loops t))
    (T := fun ptr i cs => ChildrenAt ctx.ev ptr i cs → (ctx.ev.root_.get? ptr).isSome →
      ctx.ev.Reached ptr → reachedChild (ctx.ev.ori_node_ ptr).children i = true →
        ∀ loops t, Inv t → Stops p (tileChildren ctx ptr i cs loops t)) with
  | node ptr info cs scope tile =>
    intro loops t start
    have inside := Option.isSome_of_eq_some found
    have placed := childrenAt_zero found
    have kind_eq : ctx.ev.get_type ptr = info.kind.type_ := by
      rw [Evaluator.get_type, Evaluator.ori_node_of_get? found]
      rfl
    have left (x : Exec Tally) (stops : Stops p x) : Stops p (leave ptr x) :=
      stops.bind fun t' _ => stops_ok _
    have entered := parts.keeps.enter t ptr loops start
    rw [LoopNest.visit]
    apply left
    obtain ⟨name_, level, mode, kind⟩ := info
    cases kind with
    | Op ops => exact stops_ok _
    | Trans => exact parts.transfer ptr loops _ entered inside reached kind_eq
    | Scope type =>
      have other : ctx.ev.get_type ptr ≠ .Tile := by
        rw [kind_eq]
        exact NodeType.noConfusion
      have row := parts.keeps.setRow _ ptr [] entered
      apply (scope placed reached other loops _ row).bind
      intro t' _
      unfold finishScope
      split
      · exact stops_error parts.outOfRange
      · exact stops_ok _
    | Tile type dims =>
      cases dims with
      | nil => exact stops_error parts.outOfRange
      | cons loop rest =>
        have row (loops : List LoopState) (t : Tally) (held : Inv t) : Stops p (do
            let t ← tileChildren ctx ptr 0 cs loops (t.setRow ptr [])
            PerfAnalysis.pushRow ptr t) := by
          have empty := parts.keeps.setRow t ptr [] held
          apply (tile placed inside reached rfl loops _ empty).bind
          intro t' _
          simp only [PerfAnalysis.pushRow]
          split
          · exact stops_error parts.outOfRange
          · exact stops_ok _
        have kept := parts.body kind_eq placed
        apply (parts.tileLoops inside reached kind_eq row kept (loop :: rest) loops _ entered).bind
        intro t' nested
        have iterated := parts.keeps.tileLoops kind_eq kept (loop :: rest) loops _ t' nested entered
        exact parts.finishTile ptr t' iterated inside reached kind_eq
  | first_nil ptr i =>
    rename_i loops t start
    exact stops_ok t
  | first_cons ptr i c cs first rest =>
    rename_i placed reached other loops t start
    rw [scopeChildren]
    have here : ctx.ev.Reached (i :: ptr) := ⟨fun tile => absurd tile other, reached⟩
    apply (first placed.head here loops t start).bind
    intro t' visited
    have held := parts.keeps.visit (i :: ptr) c placed.head loops t t' visited start
    apply rest placed.tail reached other loops _
    split
    · exact held
    · exact parts.keeps.setRow t' ptr _ held
  | second_nil ptr i =>
    rename_i loops t start
    exact stops_ok t
  | second_cons ptr i c cs first rest =>
    rename_i placed inside reached before loops t start
    rw [tileChildren]
    apply (first placed.head ⟨fun _ => before, reached⟩ loops t start).bind
    intro t' visited
    have held := parts.keeps.visit (i :: ptr) c placed.head loops t t' visited start
    split
    · exact stops_ok _
    · next other =>
      obtain ⟨sub, at_ptr⟩ := Option.isSome_iff_exists.mp inside
      have child : (ctx.ev.ori_node_ ptr).children[i]? = some c := by
        have at_child := placed.head
        rwa [Rose.get?_cons, at_ptr, Option.bind_some, ← Evaluator.ori_node_of_get? at_ptr]
          at at_child
      have kind_eq : ctx.ev.get_type (i :: ptr) = Node.get_type c := by
        rw [Evaluator.get_type, Evaluator.ori_node_of_get? placed.head]
      refine rest placed.tail inside reached ?_ loops _ (parts.keeps.setRow t' ptr _ held)
      rw [reachedChild_succ child, before, Bool.true_and]
      exact decide_eq_true (kind_eq ▸ other)

end PartsStop

end LoopNest

theorem PerfAnalysis.run_stops {ev : Evaluator} {tree : EvaTree} (idle : tree.Idle ev)
    {leaf_vec_ : List NodePtr} {p : Fault → Prop} {Inv : Tally → Prop}
    (parts : LoopNest.PartsStop (tree.context ev leaf_vec_) p Inv) (start : Inv (initial tree).tally) :
    Stops p (PerfAnalysis.run ev tree leaf_vec_) := by
  rw [PerfAnalysis.run_eq idle]
  apply (parts.visit [] ev.root_ rfl trivial [] _ start).bind
  intro t _
  exact stops_ok _

end TileExp.Analysis
