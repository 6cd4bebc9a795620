import Latias.Visits.Faults
import Latias.Visits.OncePerVisit

/-! A visit completes where its parts do at the nodes it reaches. -/

namespace TileExp.Analysis

open Checked

namespace LoopNest

variable {ctx : PerfContext} {node ptr : NodePtr} {loops : List LoopState} {t t' : Tally}
  {Inv : Tally → Prop}

theorem scopeChildren_origins {i : Nat} {cs : List Node} (placed : ChildrenAt ctx.ev ptr i cs)
    (run : scopeChildren ctx ptr i cs loops t = .ok t') :
    (t'.latency_sub_vec_ ptr).map Latency.origin =
      (t.latency_sub_vec_ ptr).map Latency.origin ++ scopeRow ptr i cs := by
  induction cs generalizing i t with
  | nil =>
    cases run
    exact (List.append_nil _).symm
  | cons c cs ih =>
    rw [scopeChildren] at run
    obtain ⟨mid, child, others⟩ := bind_eq_ok.mp run
    have kept : mid.latency_sub_vec_ ptr = t.latency_sub_vec_ ptr :=
      congrArg NodeData.latency_sub_vec_ (visit_keeps (i :: ptr) c loops t mid child ptr
        (fun inside => absurd inside.length_le (by simp)))
    have row := ih placed.tail others
    rw [Evaluator.get_type, Evaluator.ori_node_of_get? placed.head] at row
    rw [scopeRow]
    by_cases trans : Node.get_type c = .Trans
    · rw [if_pos trans] at row ⊢
      rw [row, kept]
    · rw [if_neg trans] at row ⊢
      rw [row]
      simp [Tally.setRow, Tally.latencyOf, kept]

theorem tileChildren_origins {i : Nat} {cs : List Node} (placed : ChildrenAt ctx.ev ptr i cs)
    (run : tileChildren ctx ptr i cs loops t = .ok t') :
    (t'.latency_sub_vec_ ptr).map Latency.origin =
      tileRow ptr i cs ((t.latency_sub_vec_ ptr).map Latency.origin) := by
  induction cs generalizing i t with
  | nil =>
    cases run
    rfl
  | cons c cs ih =>
    rw [tileChildren] at run
    obtain ⟨mid, child, others⟩ := bind_eq_ok.mp run
    have kept : mid.latency_sub_vec_ ptr = t.latency_sub_vec_ ptr :=
      congrArg NodeData.latency_sub_vec_ (visit_keeps (i :: ptr) c loops t mid child ptr
        (fun inside => absurd inside.length_le (by simp)))
    rw [Evaluator.get_type, Evaluator.ori_node_of_get? placed.head] at others
    rw [tileRow]
    by_cases scope : Node.get_type c = .Scope
    · rw [if_pos scope] at others ⊢
      cases others
      obtain ⟨_, row⟩ := visit_marks (i :: ptr) c placed.head loops t mid child
      rw [← row scope]
      simp [Tally.setRow]
    · rw [if_neg scope] at others ⊢
      rw [ih placed.tail others]
      simp [Tally.setRow, Tally.latencyOf, kept]

theorem tileChildren_log {i : Nat} {cs : List Node} (placed : ChildrenAt ctx.ev ptr i cs)
    (outside : ∀ i, Outside (i :: ptr) loops)
    (run : tileChildren ctx ptr i cs loops t = .ok t') : ∃ inside, t'.log = t.log ++ inside := by
  induction cs generalizing i t with
  | nil =>
    cases run
    exact ⟨[], (List.append_nil _).symm⟩
  | cons c cs ih =>
    rw [tileChildren] at run
    obtain ⟨mid, child, others⟩ := bind_eq_ok.mp run
    obtain ⟨first, log, _⟩ := visit_adds (i :: ptr) c placed.head loops t mid (outside i) child
    split at others
    · cases others
      exact ⟨first, log⟩
    · obtain ⟨rest, later⟩ := ih placed.tail others
      change t'.log = mid.log ++ rest at later
      exact ⟨first ++ rest, by rw [later, log, List.append_assoc]⟩

def rowOf (ev : Evaluator) (node : NodePtr) : List NodePtr :=
  tileRow node 0 (ev.ori_node_ node).children []

def BuiltFrom (origins : List NodePtr) (round : Round) : Prop :=
  round.row.map Latency.origin = origins

theorem outside_loopState {loop : Descriptor} {loop_end : Int} {i : Nat}
    (below : ∀ i, Outside (i :: ptr) loops) :
    ∀ j, Outside (j :: ptr) (loopState ptr loop loop_end i :: loops) := by
  intro j other member
  rcases List.mem_cons.mp member with rfl | earlier
  · exact fun inside => absurd inside.length_le (by simp [loopState])
  · exact below j other earlier

theorem makesRow_built {cs : List Node} {origins : List NodePtr}
    (placed : ChildrenAt ctx.ev ptr 0 cs) (outside : ∀ i, Outside (i :: ptr) loops)
    (built : (t'.latency_sub_vec_ ptr).map Latency.origin = origins)
    (run : tileChildren ctx ptr 0 cs loops (t.setRow ptr []) = .ok t') {t₁ : Tally}
    (push : PerfAnalysis.pushRow ptr t' = .ok t₁) :
    MakesRow (BuiltFrom origins) ptr loops t t₁ := by
  obtain ⟨inside, log⟩ := tileChildren_log placed outside run
  obtain ⟨_, rfl⟩ := pushRow_eq_ok push
  refine ⟨inside, t'.latency_sub_vec_ ptr, built, ?_, ?_⟩
  · change t'.log ++ _ = _
    rw [log, List.append_assoc]
    rfl
  · have rows := tileChildren_rows run
    simp [Tally.setRows, Tally.record, rows, Tally.setRow]

theorem tile_rows {info : NodeInfo} {cs : List Node} {dims : List Descriptor}
    (found : ctx.ev.root_.get? ptr = some (.mk info cs)) (runs : EachRuns ptr dims loops)
    (outside : Outside ptr loops) (run : tileLoops ctx ptr (fun loops t => do
        let t ← tileChildren ctx ptr 0 cs loops (t.setRow ptr [])
        PerfAnalysis.pushRow ptr t) dims loops t = .ok t') :
    t'.latency_vec_ ptr ≠ [] ∧
      ∀ row ∈ t'.latency_vec_ ptr, row.map Latency.origin = rowOf ctx.ev ptr := by
  have placed := childrenAt_zero found
  have first : isFirst ptr loops = true := by
    apply isFirst_of_outside
    rintro loop member rfl
    exact outside loop member List.suffix_rfl
  obtain ⟨steps, walked⟩ := @tileLoops_walked ctx ptr (BuiltFrom (rowOf ctx.ev ptr)) _
    (fun loops => ∀ i, Outside (i :: ptr) loops) (fun _ _ _ _ below => outside_loopState below)
    (fun loops t t' below body => by
      obtain ⟨mid, children, push⟩ := bind_eq_ok.mp body
      have built : (mid.latency_sub_vec_ ptr).map Latency.origin = rowOf ctx.ev ptr := by
        rw [tileChildren_origins placed children, rowOf, Evaluator.ori_node_of_get? found]
        simp [Tally.setRow, Rose.children]
      exact makesRow_built placed below built children push)
    dims loops t t' (fun _ => outside.child) run
  obtain ⟨others, split, reached, later⟩ := iterations_eq_cons runs first
  obtain ⟨_, _, _, rows⟩ := walked.once split reached later
  have some : steps ≠ [] := by
    intro none
    have iterations := walked.iterations
    rw [none, split] at iterations
    cases iterations
  rw [rows]
  constructor
  · simpa using some
  · intro row member
    obtain ⟨step, own, rfl⟩ := List.mem_map.mp member
    exact walked.rounds step own

/-- The parts of a visit complete at the nodes that are reached, in the states that satisfy what all
    parts keep; and no row of theirs is empty. -/
structure PartsComplete (ctx : PerfContext) (Inv : Tally → Prop) : Prop where
  keeps : Parts ctx fun t t' => Inv t → Inv t'
  loops : ∀ node, (ctx.ev.root_.get? node).isSome → ctx.ev.Reached node →
    ctx.ev.get_type node = .Tile → ctx.ev.loopnests_ node ≠ [] ∧
      ∀ loop ∈ ctx.ev.loopnests_ node, loop.stride = 1
  run : ∀ node, (ctx.ev.root_.get? node).isSome → ctx.ev.Reached node →
    ctx.ev.get_type node = .Tile → ∀ loops, EachRuns node (ctx.ev.loopnests_ node) loops
  scopes : ∀ node, (ctx.ev.root_.get? node).isSome → ctx.ev.Reached node →
    ctx.ev.get_type node = .Scope → scopeRow node 0 (ctx.ev.ori_node_ node).children ≠ []
  rows : ∀ node, (ctx.ev.root_.get? node).isSome → ctx.ev.Reached node →
    ctx.ev.get_type node = .Tile → rowOf ctx.ev node ≠ []
  transfer : ∀ node loops t, Inv t → (ctx.ev.root_.get? node).isSome → ctx.ev.Reached node →
    ctx.ev.get_type node = .Trans →
      ∃ t', PerfAnalysis.transTally ctx (walkAt ctx node loops) t = .ok t'
  enterTile : ∀ node loops t, Inv t → (ctx.ev.root_.get? node).isSome → ctx.ev.Reached node →
    ctx.ev.get_type node = .Tile →
      ∃ t', PerfAnalysis.enterTile ctx (walkAt ctx node loops) t = .ok t'
  computeLatency : ∀ node, (ctx.ev.root_.get? node).isSome → ctx.ev.Reached node →
    ctx.ev.get_type node = .Tile → ∀ rows, rows ≠ [] →
      (∀ row ∈ rows, row.map Latency.origin = rowOf ctx.ev node) →
        ∃ latency, Analysis.computeLatency ctx.ev node rows = .ok latency

namespace PartsComplete

theorem tileLoops (parts : PartsComplete ctx Inv) (found : (ctx.ev.root_.get? node).isSome)
    (reached : ctx.ev.Reached node) (tile : ctx.ev.get_type node = .Tile)
    {body : List LoopState → Tally → Exec Tally} {Q : List LoopState → Prop}
    (inner : ∀ loops t, Q loops → Inv t → ∃ t', body loops t = .ok t')
    (kept : ∀ loops t t', body loops t = .ok t' → Inv t → Inv t')
    (keeps : ∀ loops loop loop_end i, Q loops → Q (loopState node loop loop_end i :: loops))
    {dims : List Descriptor} (strides : ∀ loop ∈ dims, loop.stride = 1) (loops : List LoopState)
    (t : Tally) (outside : Q loops) (start : Inv t) :
    ∃ t', LoopNest.tileLoops ctx node body dims loops t = .ok t' := by
  induction dims generalizing loops t with
  | nil =>
    rw [LoopNest.tileLoops]
    unfold enterFirst
    split
    · obtain ⟨mid, entered⟩ := parts.enterTile node loops t start found reached tile
      rw [entered]
      exact inner loops mid outside (parts.keeps.enterTile t mid node loops tile entered start)
    · exact inner loops t outside start
  | cons loop rest ih =>
    rw [LoopNest.tileLoops, tileexpAssert, if_pos (strides loop List.mem_cons_self), ok_bind]
    have cleared := parts.keeps.clearSkew t node loop.name_ start
    have step := @foldlM_total _ _ _ (fun t i => do
      let t ← LoopNest.tileLoops ctx node body rest
        (loopState node loop (loopEnd node loop loops) i :: loops) t
      .ok (t.advanceSkew node loop.name_ (ctx.dim_offset_ node loop.name_).1))
      (List.range (loopEnd node loop loops - loop.start).toNat) Inv _ cleared
    obtain ⟨mid, looped, _⟩ := step fun i _ before held => by
      obtain ⟨inside, nested⟩ := ih (fun l member => strides l (List.mem_cons_of_mem loop member))
        _ before (keeps loops loop (loopEnd node loop loops) i outside) held
      have after := parts.keeps.tileLoops tile kept rest _ before inside nested held
      exact ⟨_, by rw [nested, ok_bind], parts.keeps.advanceSkew inside node loop.name_ _ after⟩
    exact ⟨_, bind_eq_ok.mpr ⟨mid, looped, rfl⟩⟩

theorem visit (parts : PartsComplete ctx Inv) (ptr : NodePtr) (sub : Node)
    (found : ctx.ev.root_.get? ptr = some sub) (reached : ctx.ev.Reached ptr) :
    ∀ loops t, Outside ptr loops → Inv t → ∃ t', LoopNest.visit ctx ptr sub loops t = .ok t' := by
  induction ptr, sub using Rose.position_induction₂
    (S := fun ptr i cs => ChildrenAt ctx.ev ptr i cs → ctx.ev.Reached ptr →
      ctx.ev.get_type ptr ≠ .Tile → ∀ loops t, (∀ i, Outside (i :: ptr) loops) → Inv t →
        ∃ t', scopeChildren ctx ptr i cs loops t = .ok t')
    (T := fun ptr i cs => ChildrenAt ctx.ev ptr i cs → (ctx.ev.root_.get? ptr).isSome →
      ctx.ev.Reached ptr → reachedChild (ctx.ev.ori_node_ ptr).children i = true →
        ∀ loops t, (∀ i, Outside (i :: ptr) loops) → Inv t →
          ∃ t', tileChildren ctx ptr i cs loops t = .ok t') with
  | node ptr info cs scope tile =>
    intro loops t outside start
    have inside := Option.isSome_of_eq_some found
    have placed := childrenAt_zero found
    have below : ∀ i, Outside (i :: ptr) loops := fun i => outside.child
    have kind_eq : ctx.ev.get_type ptr = info.kind.type_ := by
      rw [Evaluator.get_type, Evaluator.ori_node_of_get? found]
      rfl
    have cs_eq : (ctx.ev.ori_node_ ptr).children = cs := by
      rw [Evaluator.ori_node_of_get? found]
      rfl
    have left {x : Exec Tally} (completes : ∃ t', x = .ok t') : ∃ t', leave ptr x = .ok t' := by
      obtain ⟨mid, result⟩ := completes
      exact ⟨_, by rw [leave, result, ok_bind]⟩
    have entered := parts.keeps.enter t ptr loops start
    rw [LoopNest.visit]
    apply left
    obtain ⟨name_, level, mode, kind⟩ := info
    cases kind with
    | Op ops => exact ⟨_, rfl⟩
    | Trans => exact parts.transfer ptr loops _ entered inside reached kind_eq
    | Scope type =>
      have other : ctx.ev.get_type ptr ≠ .Tile := by
        rw [kind_eq]
        exact NodeType.noConfusion
      have row := parts.keeps.setRow _ ptr [] entered
      obtain ⟨after, children⟩ := scope placed reached other loops _ below row
      have origins := scopeChildren_origins placed children
      have some := parts.scopes ptr inside reached kind_eq
      have filled : after.latency_sub_vec_ ptr ≠ [] := by
        intro none
        rw [none] at origins
        apply some
        rw [cs_eq]
        simpa [Tally.setRow] using origins.symm
      have finish : finishScope ptr after = .ok _ := if_neg filled
      exact ⟨_, bind_eq_ok.mpr ⟨after, children, finish⟩⟩
    | Tile type dims =>
      have dims_eq : ctx.ev.loopnests_ ptr = dims := by
        rw [Evaluator.loopnests_, Evaluator.ori_node_of_get? found]
        rfl
      obtain ⟨listed, strides⟩ := parts.loops ptr inside reached kind_eq
      rw [dims_eq] at listed strides
      cases dims with
      | nil => exact absurd rfl listed
      | cons loop rest =>
        have some := parts.rows ptr inside reached kind_eq
        have built (t t₁ : Tally) (loops : List LoopState)
            (children : tileChildren ctx ptr 0 cs loops (t.setRow ptr []) = .ok t₁) :
            (t₁.latency_sub_vec_ ptr).map Latency.origin = rowOf ctx.ev ptr := by
          rw [tileChildren_origins placed children, rowOf, cs_eq]
          simp [Tally.setRow]
        have row (loops : List LoopState) (t : Tally) (below : ∀ i, Outside (i :: ptr) loops)
            (held : Inv t) : ∃ t', (do
              let t ← tileChildren ctx ptr 0 cs loops (t.setRow ptr [])
              PerfAnalysis.pushRow ptr t) = .ok t' := by
          have empty := parts.keeps.setRow t ptr [] held
          obtain ⟨mid, children⟩ := tile placed inside reached rfl loops _ below empty
          have filled : mid.latency_sub_vec_ ptr ≠ [] := by
            intro none
            have origins := built t mid loops children
            rw [none] at origins
            exact some origins.symm
          exact ⟨_, by rw [children, ok_bind, PerfAnalysis.pushRow, if_neg filled]⟩
        have kept (loops : List LoopState) (t t' : Tally) (run : (do
            let t ← tileChildren ctx ptr 0 cs loops (t.setRow ptr [])
            PerfAnalysis.pushRow ptr t) = .ok t') (held : Inv t) : Inv t' := by
          obtain ⟨mid, children, push⟩ := bind_eq_ok.mp run
          have empty := parts.keeps.setRow t ptr [] held
          have visited := parts.keeps.tileChildren placed loops _ mid children empty
          exact parts.keeps.pushRow mid t' ptr kind_eq push visited
        obtain ⟨after, nested⟩ := parts.tileLoops inside reached kind_eq row kept
          (fun _ _ _ _ => outside_loopState) strides loops _ below entered
        have runs : EachRuns ptr (loop :: rest) loops :=
          dims_eq ▸ parts.run ptr inside reached kind_eq loops
        obtain ⟨filled, rows⟩ := tile_rows found runs outside nested
        obtain ⟨latency, computed⟩ := parts.computeLatency ptr inside reached kind_eq _ filled rows
        obtain ⟨last, finish⟩ : ∃ last, PerfAnalysis.finishTile ctx ptr after = .ok last :=
          ⟨_, by rw [PerfAnalysis.finishTile, computed, ok_bind]⟩
        exact ⟨last, bind_eq_ok.mpr ⟨after, nested, finish⟩⟩
  | first_nil ptr i =>
    rename_i loops t _ _
    exact ⟨t, rfl⟩
  | first_cons ptr i c cs first rest =>
    rename_i placed reached other loops t below start
    rw [scopeChildren]
    have here : ctx.ev.Reached (i :: ptr) := ⟨fun tile => absurd tile other, reached⟩
    obtain ⟨mid, visited⟩ := first placed.head here loops t (below i) start
    have held := parts.keeps.visit (i :: ptr) c placed.head loops t mid visited start
    simp only [visited, ok_bind]
    apply rest placed.tail reached other loops _ below
    split
    · exact held
    · exact parts.keeps.setRow mid ptr _ held
  | second_nil ptr i =>
    rename_i loops t _ _
    exact ⟨t, rfl⟩
  | second_cons ptr i c cs first rest =>
    rename_i placed inside reached before loops t below start
    rw [tileChildren]
    obtain ⟨mid, visited⟩ := first placed.head ⟨fun _ => before, reached⟩ loops t (below i) start
    have held := parts.keeps.visit (i :: ptr) c placed.head loops t mid visited start
    simp only [visited, ok_bind]
    split
    · exact ⟨_, rfl⟩
    · next other =>
      obtain ⟨sub, at_ptr⟩ := Option.isSome_iff_exists.mp inside
      have child : (ctx.ev.ori_node_ ptr).children[i]? = some c := by
        have at_child := placed.head
        rwa [Rose.get?_cons, at_ptr, Option.bind_some, ← Evaluator.ori_node_of_get? at_ptr]
          at at_child
      have kind_eq : ctx.ev.get_type (i :: ptr) = Node.get_type c := by
        rw [Evaluator.get_type, Evaluator.ori_node_of_get? placed.head]
      refine rest placed.tail inside reached ?_ loops _ below (parts.keeps.setRow mid ptr _ held)
      rw [reachedChild_succ child, before, Bool.true_and]
      exact decide_eq_true (kind_eq ▸ other)

end PartsComplete

end LoopNest

end TileExp.Analysis
