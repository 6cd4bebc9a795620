import Latias.Visits.LoopNest
import Latias.Analysis.Evaluate
import Latias.Analysis.TraversalOrder

/-! `PerfAnalysis` does what its loop nest does, and puts the stacks back. -/

namespace TileExp.Analysis

open Checked

variable {ctx : PerfContext} {start start' : NodePtr → Nat → Int} {node ptr : NodePtr}
  {loops : List LoopState}

namespace Walk

@[simp] theorem ofLoops_current_node_ : (ofLoops ctx start node loops).current_node_ = node := rfl

@[simp] theorem ofLoops_start : (ofLoops ctx start node loops).start = start := rfl

@[simp] theorem ofLoops_current_loop_state_ :
    (ofLoops ctx start node loops).current_loop_state_ = loops := rfl

theorem ofLoops_moveTo : (ofLoops ctx start node loops).moveTo ptr = ofLoops ctx start ptr loops :=
  rfl

theorem ofLoops_push (loop : LoopState) (here : loop.node = node) :
    (ofLoops ctx start node loops).push loop (ctx.dim_offset_ node loop.name_) =
      ofLoops ctx start node (loop :: loops) := by
  subst here
  refine Walk.ext rfl ?_ ?_ ?_ ?_ rfl ?_ rfl
  · funext ptr dim_name
    rcases eq_or_ne ptr loop.node with rfl | apart
    · rcases eq_or_ne dim_name loop.name_ with rfl | other
      · simp [push, ofLoops]
      · simp [push, ofLoops, other, other.symm]
    · simp [push, ofLoops, apart, apart.symm]
  · funext ptr dim_name
    rcases eq_or_ne ptr loop.node with rfl | apart
    · rcases eq_or_ne dim_name loop.name_ with rfl | other
      · simp [push, ofLoops, List.replicate_succ]
      · simp [push, ofLoops, other, other.symm]
    · simp [push, ofLoops, apart, apart.symm]
  · funext ptr
    rcases eq_or_ne ptr loop.node with rfl | apart
    · simp [push, ofLoops]
    · simp [push, ofLoops, apart, apart.symm]
  · funext ptr
    rcases eq_or_ne ptr loop.node with rfl | apart
    · simp [push, ofLoops]
    · simp [push, ofLoops, apart, apart.symm]
  · funext dim_name
    rcases eq_or_ne dim_name loop.name_ with rfl | other
    · simp [push, ofLoops]
    · simp [push, ofLoops, other, other.symm]

theorem pop_push (w : Walk) (loop : LoopState) (offset : StEd) :
    (w.push loop offset).pop loop.name_ = w := by
  refine Walk.ext rfl ?_ ?_ ?_ ?_ rfl ?_ rfl <;> simp [push, pop]

theorem isLastLoop_ofLoops (dim_name : String) :
    (ofLoops ctx start node loops).isLastLoop dim_name = LoopNest.isLast loops dim_name := by
  simp [isLastLoop, ofLoops, LoopNest.isLast, List.all_map]

theorem isFirstLoop_ofLoops :
    isFirstLoop ((ofLoops ctx start node loops).ori_start_ node)
      ((ofLoops ctx start node loops).current_start_ node) = LoopNest.isFirst node loops := by
  simp [isFirstLoop, ofLoops, LoopNest.isFirst, List.zip_map', List.all_map, Function.comp_def]

end Walk

namespace PerfAnalysis

def StartsBelow (ctx : PerfContext) (start : NodePtr → Nat → Int) (node : NodePtr) : Prop :=
  ∀ ptr, node <:+ ptr → ∀ idx loop, (ctx.ev.loopnests_ ptr)[idx]? = some loop →
    start ptr idx = loop.start

structure StartsFrom (ctx : PerfContext) (start : NodePtr → Nat → Int) (node : NodePtr)
    (idx : Nat) : Prop where
  here : ∀ idx', idx ≤ idx' → ∀ loop, (ctx.ev.loopnests_ node)[idx']? = some loop →
    start node idx' = loop.start
  below : ∀ i, StartsBelow ctx start (i :: node)

theorem StartsBelow.child {i : Nat} (starts : StartsBelow ctx start node) :
    StartsBelow ctx start (i :: node) :=
  fun ptr under => starts ptr ((List.suffix_cons i node).trans under)

theorem StartsBelow.from (starts : StartsBelow ctx start node) (idx : Nat) :
    StartsFrom ctx start node idx :=
  ⟨fun idx' _ => starts node List.suffix_rfl idx', fun _ => starts.child⟩

def setStart (start : NodePtr → Nat → Int) (node : NodePtr) (idx : Nat) (value : Int) :
    NodePtr → Nat → Int :=
  Function.update start node (Function.update (start node) idx value)

theorem StartsFrom.setStart {idx : Nat} {value : Int} (starts : StartsFrom ctx start node idx) :
    StartsFrom ctx (setStart start node idx value) node (idx + 1) := by
  refine ⟨fun idx' bound loop found => ?_, fun i ptr under idx' loop found => ?_⟩
  · rw [PerfAnalysis.setStart, Function.update_self, Function.update_of_ne (by omega)]
    exact starts.here idx' (by omega) loop found
  · have apart : ptr ≠ node := by
      rintro rfl
      exact absurd under.length_le (by simp)
    rw [PerfAnalysis.setStart, Function.update_of_ne apart]
    exact starts.below i ptr under idx' loop found

theorem enterTile_ofLoops (t : Tally) :
    enterTile ctx (Walk.ofLoops ctx start node loops) t =
      enterTile ctx (LoopNest.walkAt ctx node loops) t := rfl

def runInner (ctx : PerfContext) (node : NodePtr) (innermost : Prop) [Decidable innermost]
    (inner : PerfState → Exec PerfState) (w : Walk) (t : Tally) : Exec PerfState :=
  if innermost ∧ Walk.isFirstLoop (w.ori_start_ node) (w.current_start_ node) then do
    let t ← enterTile ctx w t
    inner ⟨w, t⟩
  else inner ⟨w, t⟩

/-- A part of a visit that stays at its node does what its loop nest does. -/
def Follows (ctx : PerfContext) (node : NodePtr) (idx : Nat) (run : Walk → Tally → Exec PerfState)
    (nest : List LoopState → Tally → Exec Tally) : Prop :=
  ∀ start loops t, StartsFrom ctx start node idx →
    run (Walk.ofLoops ctx start node loops) t = (do
      let t ← nest loops t
      .ok ⟨Walk.ofLoops ctx start node loops, t⟩)

theorem tileIteration_eq {idx dim_bound : Nat} {loop : Descriptor} {ori_start loop_end : Int}
    {inner : PerfState → Exec PerfState} (s : PerfState) (here : s.walk.current_node_ = node) :
    tileIteration ctx node idx dim_bound loop ori_start loop_end inner s = (do
      let s' ← runInner ctx node (idx + 1 = dim_bound) inner
        (s.walk.push ⟨node, loop.name_, ori_start, loop_end, s.walk.start node idx,
          ¬ s.walk.start node idx + loop.stride < loop_end⟩ (ctx.dim_offset_ node loop.name_)) s.tally
      let w := s'.walk.pop loop.name_
      .ok ⟨w.setStart node idx (w.start node idx + loop.stride),
        s'.tally.advanceSkew s'.walk.current_node_ loop.name_
          (ctx.dim_offset_ s'.walk.current_node_ loop.name_).1⟩) := by
  subst here
  simp only [tileIteration, runInner]
  split <;> simp only [bind_assoc, ok_bind]

theorem tileIteration_ofLoops {idx dim_bound : Nat} {loop : Descriptor}
    {inner : PerfState → Exec PerfState} {nest : List LoopState → Tally → Exec Tally}
    (loop_end : Int) (loops : List LoopState) (stride : loop.stride = 1) (starts : StartsFrom ctx start node idx)
    (follows : Follows ctx node (idx + 1) (runInner ctx node (idx + 1 = dim_bound) inner) nest)
    (i : Nat) (t : Tally) :
    tileIteration ctx node idx dim_bound loop loop.start loop_end inner
        ⟨Walk.ofLoops ctx (setStart start node idx (loop.start + i)) node loops, t⟩ = (do
      let t ← (do
        let t ← nest (LoopNest.loopState node loop loop_end i :: loops) t
        .ok (t.advanceSkew node loop.name_ (ctx.dim_offset_ node loop.name_).1))
      .ok ⟨Walk.ofLoops ctx (setStart start node idx (loop.start + (i + 1 : Nat))) node loops, t⟩) := by
  have current : setStart start node idx (loop.start + i) node idx = loop.start + i := by
    rw [setStart, Function.update_self, Function.update_self]
  have moved : (Walk.ofLoops ctx (setStart start node idx (loop.start + i)) node loops).setStart
      node idx (loop.start + i + 1) =
        Walk.ofLoops ctx (setStart start node idx (loop.start + (i + 1 : Nat))) node loops := by
    simp [Walk.setStart, Walk.ofLoops, setStart, Int.add_assoc]
  have pushed : (Walk.ofLoops ctx (setStart start node idx (loop.start + i)) node loops).push
      (LoopNest.loopState node loop loop_end i) (ctx.dim_offset_ node loop.name_) =
      Walk.ofLoops ctx (setStart start node idx (loop.start + i)) node
        (LoopNest.loopState node loop loop_end i :: loops) := Walk.ofLoops_push _ rfl
  have popped : (Walk.ofLoops ctx (setStart start node idx (loop.start + i)) node
      (LoopNest.loopState node loop loop_end i :: loops)).pop loop.name_ =
      Walk.ofLoops ctx (setStart start node idx (loop.start + i)) node loops := by
    rw [← pushed]
    exact Walk.pop_push _ (LoopNest.loopState node loop loop_end i) _
  have inside := follows _ (LoopNest.loopState node loop loop_end i :: loops) t
    (@StartsFrom.setStart ctx start node idx (loop.start + i) starts)
  rw [← pushed] at inside
  refine (@tileIteration_eq ctx node _ _ _ _ _ _ _ rfl).trans ?_
  simp only [Walk.ofLoops_start, current]
  refine (congrArg (· >>= _) inside).trans ?_
  rw [bind_assoc, bind_assoc]
  refine bind_congr fun t => ?_
  simp only [ok_bind, pushed, popped, Walk.ofLoops_current_node_, Walk.ofLoops_start, current,
    stride, moved]

theorem runInner_zero {idx dim_bound : Nat} {body : List LoopState → Tally → Exec Tally}
    {children : PerfState → Exec PerfState} (last : idx = dim_bound)
    (follows : Follows ctx node idx (fun w t => children ⟨w, t⟩) body) :
    Follows ctx node idx (runInner ctx node (idx = dim_bound) children)
      (LoopNest.tileLoops ctx node body []) := by
  intro start loops t starts
  rw [runInner, Walk.isFirstLoop_ofLoops, LoopNest.tileLoops, LoopNest.enterFirst, enterTile_ofLoops]
  by_cases first : LoopNest.isFirst node loops
  · rw [if_pos ⟨last, first⟩, if_pos first, bind_assoc]
    exact bind_congr fun t => follows start loops t starts
  · rw [if_neg (fun both => first both.2), if_neg first, ok_bind]
    exact follows start loops t starts

theorem runInner_succ {idx dim_bound : Nat} {inner : PerfState → Exec PerfState}
    {nest : List LoopState → Tally → Exec Tally} (more : idx ≠ dim_bound)
    (follows : Follows ctx node idx (fun w t => inner ⟨w, t⟩) nest) :
    Follows ctx node idx (runInner ctx node (idx = dim_bound) inner) nest := by
  intro start loops t starts
  rw [runInner, if_neg (fun both => more both.1)]
  exact follows start loops t starts

theorem visitTileLoop_step {is_root : Bool} {children : PerfState → Exec PerfState}
    {body : List LoopState → Tally → Exec Tally} {idx rest : Nat} {loop : Descriptor}
    {loops' : List Descriptor} (rooted : is_root = (get_parent node).isNone)
    (dims : (ctx.ev.loopnests_ node).drop idx = loop :: loops') (count : loops'.length = rest)
    (follows : Follows ctx node (idx + 1)
      (runInner ctx node (idx + 1 = (ctx.ev.loopnests_ node).length)
        (if rest = 0 then children
          else visitTileLoop ctx is_root (ctx.ev.loopnests_ node).length children rest))
      (LoopNest.tileLoops ctx node body loops'))
    (start : NodePtr → Nat → Int) (loops : List LoopState) (t : Tally)
    (starts : StartsFrom ctx start node idx) :
    visitTileLoop ctx is_root (ctx.ev.loopnests_ node).length children (rest + 1)
      ⟨Walk.ofLoops ctx start node loops, t⟩ = (do
        let t ← LoopNest.tileLoops ctx node body (loop :: loops') loops t
        if idx = 0 then do
          let t ← finishTile ctx node t
          .ok ⟨Walk.ofLoops ctx start (up node) loops, t⟩
        else .ok ⟨Walk.ofLoops ctx start node loops, t⟩) := by
  have found : (ctx.ev.loopnests_ node)[idx]? = some loop := by
    rw [← List.head?_drop, dims]
    rfl
  have length : (ctx.ev.loopnests_ node).length = idx + (rest + 1) := by
    have counted := congrArg List.length dims
    rw [List.length_drop, List.length_cons, count] at counted
    have bound := (List.getElem?_eq_some_iff.mp found).1
    omega
  have current : start node idx = loop.start := starts.here idx (Nat.le_refl idx) loop found
  have unchanged : setStart start node idx loop.start = start := by
    rw [← current, setStart, Function.update_eq_self, Function.update_eq_self]
  have restored (value : Int) (ptr : NodePtr) :
      (Walk.ofLoops ctx (setStart start node idx value) ptr loops).setStart node idx loop.start =
        Walk.ofLoops ctx start ptr loops := by
    conv_rhs => rw [← unchanged]
    simp [Walk.setStart, Walk.ofLoops, setStart]
  rw [visitTileLoop]
  simp only [Walk.ofLoops_current_node_, Walk.ofLoops_start,
    show (ctx.ev.loopnests_ node).length - (rest + 1) = idx by omega, found, current,
    Walk.isLastLoop_ofLoops]
  rw [LoopNest.tileLoops, bind_assoc]
  by_cases stride : loop.stride = 1
  · have nested := iterate_eq_foldlM (g := fun (i : Nat) t => (⟨Walk.ofLoops ctx
        (setStart start node idx (loop.start + i)) node loops, t⟩ : PerfState))
      (tileIteration_ofLoops (LoopNest.loopEnd node loop loops) loops stride starts follows)
      (LoopNest.loopEnd node loop loops - loop.start).toNat (t.clearSkew node loop.name_)
    simp only [Int.ofNat_zero, Int.add_zero, unchanged] at nested
    simp only [tileexpAssert, if_pos stride, ok_bind]
    subst rooted
    refine (congrArg (· >>= _) nested).trans ?_
    rw [bind_assoc, bind_assoc]
    refine bind_congr fun t => ?_
    by_cases outer : idx = 0
    · simp only [ok_bind, if_pos outer, Walk.ofLoops_current_node_, Walk.ofLoops_moveTo, restored]
    · simp only [ok_bind, if_neg outer, Walk.ofLoops_current_node_, restored]
  · simp only [tileexpAssert, if_neg stride, error_bind]

theorem visitTileLoop_follows {is_root : Bool} {children : PerfState → Exec PerfState}
    {body : List LoopState → Tally → Exec Tally} (rooted : is_root = (get_parent node).isNone)
    (follows : ∀ idx, Follows ctx node idx (fun w t => children ⟨w, t⟩) body) (rest : Nat) :
    ∀ idx loop loops', (ctx.ev.loopnests_ node).drop idx = loop :: loops' → loops'.length = rest →
      ∀ start loops t, StartsFrom ctx start node idx →
        visitTileLoop ctx is_root (ctx.ev.loopnests_ node).length children (rest + 1)
          ⟨Walk.ofLoops ctx start node loops, t⟩ = (do
            let t ← LoopNest.tileLoops ctx node body (loop :: loops') loops t
            if idx = 0 then do
              let t ← finishTile ctx node t
              .ok ⟨Walk.ofLoops ctx start (up node) loops, t⟩
            else .ok ⟨Walk.ofLoops ctx start node loops, t⟩) := by
  induction rest with
  | zero =>
    intro idx loop loops' dims count
    obtain rfl := List.length_eq_zero_iff.mp count
    refine visitTileLoop_step rooted dims rfl ?_
    rw [if_pos rfl]
    refine runInner_zero ?_ (follows (idx + 1))
    have counted := congrArg List.length dims
    rw [List.length_drop, List.length_singleton] at counted
    omega
  | succ rest ih =>
    intro idx loop loops' dims count
    refine visitTileLoop_step rooted dims count ?_
    rw [if_neg (Nat.succ_ne_zero rest)]
    cases loops' with
    | nil => cases count
    | cons next loops' =>
      have counted := congrArg List.length dims
      rw [List.length_drop, List.length_cons, List.length_cons] at counted
      refine runInner_succ (by omega) ?_
      intro start loops t starts
      have tail : (ctx.ev.loopnests_ node).drop (idx + 1) = next :: loops' := by
        rw [← List.tail_drop, dims]
        rfl
      exact (ih (idx + 1) next loops' tail (Nat.succ_inj.mp count) start loops t starts).trans
        (bind_congr fun t => if_neg (Nat.succ_ne_zero idx))

theorem descend_ofLoops {i : Nat} {c : Node} (found : ctx.ev.root_.get? (i :: ptr) = some c)
    (t : Tally) : descend ctx i ⟨Walk.ofLoops ctx start ptr loops, t⟩ =
      .ok ⟨Walk.ofLoops ctx start (i :: ptr) loops, t⟩ := by
  simp only [descend, Walk.ofLoops_current_node_, Evaluator.child_of_get? found, ok_bind,
    Walk.ofLoops_moveTo]

/-- A visit does what its loop nest does, and ends at the parent with the stacks it found. -/
theorem visit_eq (ptr : NodePtr) (node : Node) (found : ctx.ev.root_.get? ptr = some node) :
    ∀ start loops t, StartsBelow ctx start ptr →
      visit ctx ptr node ⟨Walk.ofLoops ctx start ptr loops, t⟩ = (do
        let t ← LoopNest.visit ctx ptr node loops t
        .ok ⟨Walk.ofLoops ctx start (up ptr) loops, t⟩) := by
  induction ptr, node using Rose.position_induction₂
    (S := fun ptr i cs => ChildrenAt ctx.ev ptr i cs →
      ∀ start loops t, (∀ j, StartsBelow ctx start (j :: ptr)) →
        scopeChildren ctx ptr i cs ⟨Walk.ofLoops ctx start ptr loops, t⟩ = (do
          let t ← LoopNest.scopeChildren ctx ptr i cs loops t
          .ok ⟨Walk.ofLoops ctx start ptr loops, t⟩))
    (T := fun ptr i cs => ChildrenAt ctx.ev ptr i cs →
      ∀ start loops t, (∀ j, StartsBelow ctx start (j :: ptr)) →
        tileChildren ctx ptr i cs ⟨Walk.ofLoops ctx start ptr loops, t⟩ = (do
          let t ← LoopNest.tileChildren ctx ptr i cs loops t
          .ok ⟨Walk.ofLoops ctx start ptr loops, t⟩)) with
  | node ptr info cs scope tile =>
    intro start loops t starts
    have placed := childrenAt_zero found
    have below : ∀ j, StartsBelow ctx start (j :: ptr) := fun j => starts.child
    rw [visit, LoopNest.visit]
    obtain ⟨name_, level, mode, kind⟩ := info
    cases kind with
    | Op ops => rfl
    | Trans =>
      simp only [LoopNest.leave, bind_assoc, ok_bind]
      exact bind_congr fun t => rfl
    | Scope type =>
      have children := scope placed start loops
        ((t.record (.enter ptr ptr loops t.dim_skew)).setRow ptr []) below
      simp only [Walk.ofLoops_current_node_, Walk.ofLoops_current_loop_state_]
      refine (congrArg (· >>= _) children).trans ?_
      simp only [LoopNest.leave, bind_assoc]
      refine bind_congr fun t => ?_
      simp only [ok_bind, Walk.ofLoops_current_node_, LoopNest.finishScope]
      by_cases empty : t.latency_sub_vec_ ptr = []
      · rw [if_pos empty]
        exact if_pos empty
      · rw [if_neg empty]
        exact if_neg empty
    | Tile type dims =>
      have dims_eq : ctx.ev.loopnests_ ptr = dims := by
        rw [Evaluator.loopnests_, Evaluator.ori_node_of_get? found]
        rfl
      cases dims with
      | nil => rfl
      | cons loop rest =>
        have body : ∀ idx, Follows ctx ptr idx
            (fun w t => do
              let s ← tileChildren ctx ptr 0 cs ⟨w, t.setRow w.current_node_ []⟩
              let t ← pushRow s.walk.current_node_ s.tally
              .ok ⟨s.walk, t⟩)
            (fun loops t => do
              let t ← LoopNest.tileChildren ctx ptr 0 cs loops (t.setRow ptr [])
              pushRow ptr t) := by
          intro idx start loops t starts
          refine (congrArg (· >>= _) (tile placed start loops _ starts.below)).trans ?_
          rw [bind_assoc, bind_assoc]
          refine bind_congr fun t => ?_
          rfl
        have nested := @visitTileLoop_follows ctx ptr (get_parent ptr).isNone
          (fun s => do
            let s ← tileChildren ctx ptr 0 cs ⟨s.walk, s.tally.setRow s.walk.current_node_ []⟩
            let t ← pushRow s.walk.current_node_ s.tally
            .ok ⟨s.walk, t⟩) _ rfl body rest.length 0 loop rest dims_eq rfl start loops
          (t.record (.enter ptr ptr loops t.dim_skew)) (starts.from 0)
        simp only [if_pos, dims_eq] at nested
        refine (congrArg (· >>= _) nested).trans ?_
        simp only [LoopNest.leave, bind_assoc, ok_bind]
        rfl
  | first_nil ptr i => rfl
  | first_cons ptr i c cs first rest =>
    rename_i placed start loops t below
    rw [scopeChildren, LoopNest.scopeChildren]
    simp only [descend_ofLoops placed.head, ok_bind, first placed.head start loops t (below i),
      bind_assoc, up_cons, Walk.ofLoops_current_node_, Evaluator.child_of_get? placed.head]
    exact bind_congr fun t => rest placed.tail start loops _ below
  | second_nil ptr i => rfl
  | second_cons ptr i c cs first rest =>
    rename_i placed start loops t below
    rw [tileChildren, LoopNest.tileChildren]
    simp only [descend_ofLoops placed.head, ok_bind, first placed.head start loops t (below i),
      bind_assoc, up_cons, Walk.ofLoops_current_node_, Evaluator.child_of_get? placed.head]
    refine bind_congr fun t => ?_
    split
    · rfl
    · exact rest placed.tail start loops _ below

end PerfAnalysis

def EvaTree.context (ev : Evaluator) (tree : EvaTree) (leaf_vec_ : List NodePtr) : PerfContext :=
  ⟨ev, tree.toEvaOffsets, leaf_vec_⟩

def EvaTree.Idle (ev : Evaluator) (tree : EvaTree) : Prop :=
  tree.toEvaStacks = (EvaTree.fresh ev).toEvaStacks

namespace PerfAnalysis

theorem startsBelow_fresh (ptr : NodePtr) :
    StartsBelow ctx (EvaTree.fresh ctx.ev).start ptr := by
  intro node _ idx loop found
  simp [EvaTree.fresh, found]

/-- A run from idle stacks is the loop nest of the root, and leaves the stacks idle. -/
theorem run_eq {ev : Evaluator} {tree : EvaTree} (idle : tree.Idle ev) (leaf_vec_ : List NodePtr) :
    run ev tree leaf_vec_ = (do
      let t ← LoopNest.visit (tree.context ev leaf_vec_) [] ev.root_ [] (initial tree).tally
      .ok ⟨(initial tree).walk, t⟩) := by
  have start : initial tree = ⟨Walk.ofLoops (tree.context ev leaf_vec_) (EvaTree.fresh ev).start [] [],
      (initial tree).tally⟩ := by
    rw [initial, idle]
    rfl
  rw [run, start]
  exact @visit_eq (tree.context ev leaf_vec_) [] ev.root_ rfl _ [] (initial tree).tally
    (@startsBelow_fresh (tree.context ev leaf_vec_) [])

end PerfAnalysis

end TileExp.Analysis
