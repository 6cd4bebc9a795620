import Latias.Again.Replay

/-! A visit that is made again does what it did. -/

namespace TileExp.Analysis

open Checked

namespace LoopNest

variable {ctx : PerfContext} {node ptr : NodePtr} {loops : List LoopState} {t t' u u' : Tally}
  {names : List String}

/-! What the children of a node leave alone. -/

theorem dataAt_setRow_self (t : Tally) (node : NodePtr) (row : List Latency) :
    (t.setRow node row).dataAt node = { t.dataAt node with latency_sub_vec_ := row } := by
  simp [Tally.dataAt, Tally.setRow]

theorem not_suffix_of_cons (i : Nat) (node : NodePtr) : ¬ (i :: node) <:+ node :=
  fun below => absurd below.length_le (by simp)

theorem ne_of_cons_suffix {i : Nat} {q : NodePtr} (under : (i :: node) <:+ q) : q ≠ node := by
  rintro rfl
  exact not_suffix_of_cons i q under

theorem tileChildren_self {i : Nat} {cs : List Node}
    (run : tileChildren ctx ptr i cs loops t = .ok t') :
    t'.dataAt ptr = { t.dataAt ptr with latency_sub_vec_ := t'.latency_sub_vec_ ptr } := by
  induction cs generalizing i t with
  | nil =>
    cases run
    rfl
  | cons c cs ih =>
    rw [tileChildren] at run
    obtain ⟨mid, child, others⟩ := bind_eq_ok.mp run
    have kept := visit_keeps (i :: ptr) c loops t mid child ptr (not_suffix_of_cons i ptr)
    split at others
    · cases others
      rw [dataAt_setRow_self, kept]
      simp [Tally.setRow]
    · rw [ih others, dataAt_setRow_self, kept]

theorem visit_sibling {i j : Nat} {c : Node} {q : NodePtr} (apart : i ≠ j)
    (under : (j :: ptr) <:+ q) (run : visit ctx (i :: ptr) c loops t = .ok t') :
    t'.dataAt q = t.dataAt q :=
  visit_keeps (i :: ptr) c loops t t' run q fun inside => apart (Rose.child_unique inside under)

theorem tileChildren_before {i j : Nat} {cs : List Node} {q : NodePtr} (earlier : j < i)
    (under : (j :: ptr) <:+ q) (run : tileChildren ctx ptr i cs loops t = .ok t') :
    t'.dataAt q = t.dataAt q := by
  induction cs generalizing i t with
  | nil =>
    cases run
    rfl
  | cons c cs ih =>
    rw [tileChildren] at run
    obtain ⟨mid, child, others⟩ := bind_eq_ok.mp run
    have kept := visit_sibling (show i ≠ j by omega) under child
    have other := ne_of_cons_suffix under
    split at others
    · cases others
      rw [Tally.dataAt_setRow other, kept]
    · rw [ih (by omega) others, Tally.dataAt_setRow other, kept]

theorem scopeChildren_before {i j : Nat} {cs : List Node} {q : NodePtr} (earlier : j < i)
    (under : (j :: ptr) <:+ q) (run : scopeChildren ctx ptr i cs loops t = .ok t') :
    t'.dataAt q = t.dataAt q := by
  induction cs generalizing i t with
  | nil =>
    cases run
    rfl
  | cons c cs ih =>
    rw [scopeChildren] at run
    obtain ⟨mid, child, others⟩ := bind_eq_ok.mp run
    have kept := visit_sibling (show i ≠ j by omega) under child
    have other := ne_of_cons_suffix under
    split at others
    · rw [ih (by omega) others, kept]
    · rw [ih (by omega) others, Tally.dataAt_setRow other, kept]

/-! The loops of a Tile. -/

def LastAbove (node : NodePtr) (loops : List LoopState) : Prop :=
  ∀ outer ∈ loops, outer.is_last = true ∧ ∀ i, ¬ (i :: node) <:+ outer.node

theorem loopEnd_of_last (node : NodePtr) (loop : Descriptor)
    (last : ∀ outer ∈ loops, outer.is_last = true) : loopEnd node loop loops = loop.residual_end := by
  have all : isLast loops loop.name_ = true := by
    rw [isLast, List.all_eq_true]
    exact fun outer member => last outer (List.mem_of_mem_filter member)
  rw [loopEnd, all, Bool.or_true, if_pos rfl]

theorem tileLoops_process {body : List LoopState → Tally → Exec Tally}
    (inner : ∀ loops t t', body loops t = .ok t' →
      t'.process_latency_ node = t.process_latency_ node) (dims : List Descriptor) :
    ∀ loops t t', tileLoops ctx node body dims loops t = .ok t' →
      t'.process_latency_ node = t.process_latency_ node := by
  induction dims with
  | nil =>
    intro loops t t' run
    rw [tileLoops] at run
    obtain ⟨mid, first, second⟩ := bind_eq_ok.mp run
    refine (inner loops mid t' second).trans ?_
    unfold enterFirst at first
    split at first
    · obtain ⟨ins, outs, tile, trans, entered⟩ := enterTile_eq_ok first
      rw [entered.result]
    · cases first
      rfl
  | cons loop rest ih =>
    intro loops t t' run
    rw [tileLoops] at run
    obtain ⟨_, _, run⟩ := bind_eq_ok.mp run
    obtain ⟨mid, iterations, result⟩ := bind_eq_ok.mp run
    cases result
    refine foldlM_induction iterations
      (fun _ t' => t'.process_latency_ node = t.process_latency_ node) rfl ?_
    intro done i rest' before after _ kept step
    obtain ⟨inside, nested, result⟩ := bind_eq_ok.mp step
    cases result
    exact (ih _ before inside nested).trans kept

theorem Inside.clearSkew {ev : Evaluator} (inside : Inside ev node names t u) (name : String) :
    Inside ev node (name :: names) (t.clearSkew node name) (u.clearSkew node name) := by
  obtain ⟨agree, current⟩ := inside
  refine ⟨⟨agree.tensors, agree.dim_skew, agree.data_movements_, agree.scopes⟩, ?_⟩
  intro other member
  by_cases same : other = name
  · subst same
    simp [Tally.clearSkew]
  · simp [Tally.clearSkew, same, current other ((List.mem_cons.mp member).resolve_left same)]

theorem Inside.advanceSkew {ev : Evaluator} {name : String}
    (inside : Inside ev node (name :: names) t u) (offset : Int) :
    Inside ev node (name :: names) (t.advanceSkew node name offset)
      (u.advanceSkew node name offset) := by
  obtain ⟨agree, current⟩ := inside
  refine ⟨⟨agree.tensors, ?_, agree.data_movements_, agree.scopes⟩, ?_⟩
  · simp only [Tally.advanceSkew, agree.dim_skew]
  · intro other member
    by_cases same : other = name
    · subst same
      simp [Tally.advanceSkew, current other member]
    · simp [Tally.advanceSkew, same, current other member]

theorem Inside.restoreSkew {ev : Evaluator} {name : String}
    (inside : Inside ev node (name :: names) t u) :
    Inside ev node names (t.restoreSkew node name) (u.restoreSkew node name) := by
  obtain ⟨agree, current⟩ := inside
  refine ⟨⟨agree.tensors, ?_, agree.data_movements_, agree.scopes⟩, ?_⟩
  · simp only [Tally.restoreSkew, agree.dim_skew, current name List.mem_cons_self]
  · exact fun other member => current other (List.mem_cons_of_mem name member)

/-- What the body of the loops of a Tile does when it is run again. -/
structure BodyAgain (ctx : PerfContext) (node : NodePtr) (ready : List LoopState → Prop)
    (left : Tally → Tally → Prop) (body : List LoopState → Tally → Exec Tally) : Prop where
  again : ∀ loops t t' u, ready loops → body loops t = .ok t' → Agree ctx.ev t u →
    Entered node t u → left t' u →
      ∃ u', body loops u = .ok u' ∧ Agree ctx.ev t' u' ∧ Entered node t' u'
  current : ∀ loops t t', body loops t = .ok t' →
    t'.current_dim_skew_ node = t.current_dim_skew_ node

theorem BodyAgain.inside {ready : List LoopState → Prop} {left : Tally → Tally → Prop}
    {body : List LoopState → Tally → Exec Tally} (rules : BodyAgain ctx node ready left body)
    (here : ready loops) (run : body loops t = .ok t') (inside : Inside ctx.ev node names t u)
    (entered : Entered node t u) (kept : left t' u) :
    ∃ u', body loops u = .ok u' ∧ Inside ctx.ev node names t' u' ∧ Entered node t' u' := by
  obtain ⟨u', run', agree, entered'⟩ := rules.again loops t t' u here run inside.agree entered kept
  refine ⟨u', run', ⟨agree, fun name member => ?_⟩, entered'⟩
  rw [rules.current loops t t' run, rules.current loops u u' run']
  exact inside.current name member

theorem enterTile_inside (tile : ctx.ev.get_type node = .Tile) (inside : Inside ctx.ev node names t u)
    (call : PerfAnalysis.enterTile ctx (walkAt ctx node loops) t = .ok t') :
    ∃ u', PerfAnalysis.enterTile ctx (walkAt ctx node loops) u = .ok u' ∧
      Inside ctx.ev node names t' u' ∧ Entered node t' u' ∧
        u'.process_latency_ = u.process_latency_ := by
  obtain ⟨u', again, agree, entered⟩ := enterTile_agree tile inside.agree call
  obtain ⟨_, _, _, _, first⟩ := enterTile_eq_ok call
  obtain ⟨_, _, _, _, second⟩ := enterTile_eq_ok again
  refine ⟨u', again, ⟨agree, fun name member => ?_⟩, entered, ?_⟩
  · rw [first.result, second.result]
    exact inside.current name member
  · rw [second.result]

theorem tileLoops_once (tile : ctx.ev.get_type node = .Tile) {left : Tally → Tally → Prop}
    {body : List LoopState → Tally → Exec Tally}
    (rules : BodyAgain ctx node (LastAbove node) left body)
    (same : ∀ t t' u u' : Tally, t'.process_latency_ = t.process_latency_ →
      u'.process_latency_ = u.process_latency_ → left t u → left t' u')
    (dims : List Descriptor) (single : ∀ loop ∈ dims, loop.start = 0 ∧ loop.residual_end = 1) :
    ∀ loops names t t' u, LastAbove node loops → isFirst node loops = true →
      tileLoops ctx node body dims loops t = .ok t' → Inside ctx.ev node names t u → left t' u →
        ∃ u', tileLoops ctx node body dims loops u = .ok u' ∧ Inside ctx.ev node names t' u' ∧
          Entered node t' u' := by
  induction dims with
  | nil =>
    intro loops names t t' u last first run inside kept
    rw [tileLoops, enterFirst, if_pos first] at run
    obtain ⟨mid, enter, rest⟩ := bind_eq_ok.mp run
    obtain ⟨u₁, enter', inside₁, entered, process⟩ := enterTile_inside tile inside enter
    obtain ⟨u', rest', done⟩ := rules.inside last rest inside₁ entered
      (same t' t' u u₁ rfl process kept)
    refine ⟨u', ?_, done⟩
    rw [tileLoops, enterFirst, if_pos first, enter', ok_bind, rest']
  | cons loop dims ih =>
    intro loops names t t' u last first run inside kept
    obtain ⟨start, residual⟩ := (List.forall_mem_cons.mp single).1
    have bound := loopEnd_of_last node loop fun outer member => (last outer member).1
    have range : List.range (loopEnd node loop loops - loop.start).toNat = [0] := by
      rw [bound, start, residual]
      rfl
    simp only [tileLoops, range, List.foldlM_cons, List.foldlM_nil] at run ⊢
    obtain ⟨_, stride, run⟩ := bind_eq_ok.mp run
    obtain ⟨mid, iteration, result⟩ := bind_eq_ok.mp run
    obtain ⟨mid', iteration, done⟩ := bind_eq_ok.mp iteration
    obtain ⟨after, nested, advanced⟩ := bind_eq_ok.mp iteration
    cases advanced
    cases done
    cases result
    have one : loop.stride = 1 := tileexpAssert_eq_ok.mp stride
    have last' : LastAbove node (loopState node loop (loopEnd node loop loops) 0 :: loops) := by
      intro outer member
      rcases List.mem_cons.mp member with rfl | member
      · rw [bound, residual]
        exact ⟨by simp [loopState, start, one], fun i => not_suffix_of_cons i node⟩
      · exact last outer member
    have first' : isFirst node (loopState node loop (loopEnd node loop loops) 0 :: loops) = true := by
      rw [isFirst_cons, first]
      rfl
    obtain ⟨u₁, nested', inside₁, entered⟩ := ih (List.forall_mem_cons.mp single).2 _ _ _ _ _ last'
      first' nested (inside.clearSkew loop.name_)
        (same ((after.advanceSkew node loop.name_ _).restoreSkew node loop.name_) after u
          (u.clearSkew node loop.name_) rfl rfl kept)
    rw [stride, ok_bind, nested']
    refine ⟨_, rfl, (inside₁.advanceSkew _).restoreSkew, entered.rows, entered.transfers⟩

theorem tileLoops_many (tile : ctx.ev.get_type node = .Tile)
    {body : List LoopState → Tally → Exec Tally}
    (rules : BodyAgain ctx node (fun _ => True) (fun _ _ => True) body) (dims : List Descriptor) :
    ∀ loops names t t' u, tileLoops ctx node body dims loops t = .ok t' →
      Inside ctx.ev node names t u → Entered node t u →
        ∃ u', tileLoops ctx node body dims loops u = .ok u' ∧ Inside ctx.ev node names t' u' ∧
          Entered node t' u' := by
  induction dims with
  | nil =>
    intro loops names t t' u run inside entered
    rw [tileLoops, enterFirst] at run ⊢
    by_cases first : isFirst node loops = true
    · rw [if_pos first] at run ⊢
      obtain ⟨mid, enter, rest⟩ := bind_eq_ok.mp run
      obtain ⟨u₁, enter', inside₁, entered₁, _⟩ := enterTile_inside tile inside enter
      obtain ⟨u', rest', done⟩ := rules.inside trivial rest inside₁ entered₁ trivial
      exact ⟨u', by rw [enter', ok_bind, rest'], done⟩
    · rw [if_neg first] at run ⊢
      obtain ⟨u', rest', done⟩ := rules.inside trivial run inside entered trivial
      exact ⟨u', rest', done⟩
  | cons loop dims ih =>
    intro loops names t t' u run inside entered
    rw [tileLoops] at run ⊢
    obtain ⟨_, stride, run⟩ := bind_eq_ok.mp run
    obtain ⟨mid, iterations, result⟩ := bind_eq_ok.mp run
    cases result
    have round : ∀ i s s' v, (Inside ctx.ev node (loop.name_ :: names) s v ∧ Entered node s v) →
        (do
          let t ← tileLoops ctx node body dims
            (loopState node loop (loopEnd node loop loops) i :: loops) s
          .ok (t.advanceSkew node loop.name_ (ctx.dim_offset_ node loop.name_).1)) = .ok s' →
        ∃ v', (do
          let t ← tileLoops ctx node body dims
            (loopState node loop (loopEnd node loop loops) i :: loops) v
          .ok (t.advanceSkew node loop.name_ (ctx.dim_offset_ node loop.name_).1)) = .ok v' ∧
          Inside ctx.ev node (loop.name_ :: names) s' v' ∧ Entered node s' v' := by
      rintro i s s' v ⟨inside, entered⟩ step
      obtain ⟨after, nested, advanced⟩ := bind_eq_ok.mp step
      cases advanced
      obtain ⟨v', nested', inside', entered'⟩ := ih _ _ s after v nested inside entered
      rw [nested', ok_bind]
      exact ⟨_, rfl, inside'.advanceSkew _, entered'.rows, entered'.transfers⟩
    have start : Inside ctx.ev node (loop.name_ :: names) (t.clearSkew node loop.name_)
        (u.clearSkew node loop.name_) ∧ Entered node (t.clearSkew node loop.name_)
          (u.clearSkew node loop.name_) :=
      ⟨inside.clearSkew loop.name_, entered.rows, entered.transfers⟩
    obtain ⟨u₁, iterations', inside₁, entered₁⟩ := foldlM_related iterations start round
    rw [stride, ok_bind]
    simp only [iterations', ok_bind]
    exact ⟨_, rfl, inside₁.restoreSkew, entered₁.rows, entered₁.transfers⟩

/-! The visits. -/

def SingleTiles (ev : Evaluator) : Prop :=
  ∀ node, ev.RunsTile node → ∀ loop ∈ ev.loopnests_ node, loop.start = 0 ∧ loop.residual_end = 1

def ChildrenAgain (ctx : PerfContext) (ptr : NodePtr) (i : Nat)
    (children : List LoopState → Tally → Exec Tally) : Prop :=
  ∀ loops t t' u, (ctx.ev.Deep → LastAbove ptr loops) → children loops t = .ok t' → Agree ctx.ev t u →
    u.latency_sub_vec_ ptr = t.latency_sub_vec_ ptr →
      Left ctx.ev (fun q => ∃ k, i ≤ k ∧ (k :: ptr) <:+ q) t' u →
        ∃ u', children loops u = .ok u' ∧ Agree ctx.ev t' u' ∧
          u'.latency_sub_vec_ ptr = t'.latency_sub_vec_ ptr

theorem body_again {cs : List Node} (children : ChildrenAgain ctx ptr 0 (tileChildren ctx ptr 0 cs))
    (ready : ctx.ev.Deep → LastAbove ptr loops)
    (run : (do
      let t ← tileChildren ctx ptr 0 cs loops (t.setRow ptr [])
      PerfAnalysis.pushRow ptr t) = .ok t') (agree : Agree ctx.ev t u) (entered : Entered ptr t u)
    (left : Left ctx.ev (fun q => ptr <:+ q ∧ q ≠ ptr) t' u) :
    ∃ u', (do
      let t ← tileChildren ctx ptr 0 cs loops (u.setRow ptr [])
      PerfAnalysis.pushRow ptr t) = .ok u' ∧ Agree ctx.ev t' u' ∧ Entered ptr t' u' := by
  obtain ⟨mid, visited, push⟩ := bind_eq_ok.mp run
  obtain ⟨present, rfl⟩ := pushRow_eq_ok push
  have rows : (u.setRow ptr []).latency_sub_vec_ ptr = (t.setRow ptr []).latency_sub_vec_ ptr := by
    simp [Tally.setRow]
  have below : Left ctx.ev (fun q => ∃ k, 0 ≤ k ∧ (k :: ptr) <:+ q) mid (u.setRow ptr []) := by
    rintro q ⟨k, _, under⟩ tile
    exact left q ⟨(List.suffix_cons k ptr).trans under, ne_of_cons_suffix under⟩ tile
  obtain ⟨mid', visited', agree', row⟩ := children loops _ mid _ ready visited (agree.setRow [] [])
    rows below
  have self : mid.dataAt ptr = { t.dataAt ptr with latency_sub_vec_ := mid.latency_sub_vec_ ptr } := by
    rw [tileChildren_self visited, dataAt_setRow_self]
  have self' : mid'.dataAt ptr =
      { u.dataAt ptr with latency_sub_vec_ := mid'.latency_sub_vec_ ptr } := by
    rw [tileChildren_self visited', dataAt_setRow_self]
  have vec : mid.latency_vec_ ptr = t.latency_vec_ ptr := congrArg NodeData.latency_vec_ self
  have vec' : mid'.latency_vec_ ptr = u.latency_vec_ ptr := congrArg NodeData.latency_vec_ self'
  rw [visited', ok_bind, PerfAnalysis.pushRow, row, if_neg present]
  refine ⟨_, rfl, (agree'.setRows _ _).record _ _, ?_, fun inner => ?_⟩
  · simp [Tally.record, Tally.setRows, vec, vec', entered.rows]
  · obtain ⟨ins, outs⟩ := entered.transfers inner
    exact ⟨(congrArg NodeData.input_latency_ self').trans (ins.trans
        (congrArg NodeData.input_latency_ self).symm),
      (congrArg NodeData.output_latency_ self').trans (outs.trans
        (congrArg NodeData.output_latency_ self).symm)⟩

theorem body_self {cs : List Node} (run : (do
      let t ← tileChildren ctx ptr 0 cs loops (t.setRow ptr [])
      PerfAnalysis.pushRow ptr t) = .ok t') :
    t'.current_dim_skew_ ptr = t.current_dim_skew_ ptr ∧
      t'.process_latency_ ptr = t.process_latency_ ptr := by
  obtain ⟨mid, visited, push⟩ := bind_eq_ok.mp run
  obtain ⟨_, rfl⟩ := pushRow_eq_ok push
  have self : mid.dataAt ptr = { t.dataAt ptr with latency_sub_vec_ := mid.latency_sub_vec_ ptr } := by
    rw [tileChildren_self visited, dataAt_setRow_self]
  exact ⟨congrArg NodeData.current_dim_skew_ self, congrArg NodeData.process_latency_ self⟩

/-- The loops of a Tile do again what they did: they run once, or no Tile is below them and they
    start from the same rows. -/
theorem loops_again {cs : List Node} {dims : List Descriptor}
    (single : ctx.ev.Deep → SingleTiles ctx.ev) (tile : ctx.ev.RunsTile ptr)
    (dims_eq : ctx.ev.loopnests_ ptr = dims)
    (children : ChildrenAgain ctx ptr 0 (tileChildren ctx ptr 0 cs))
    (ready : ctx.ev.Deep → ∀ outer ∈ loops, outer.is_last = true ∧ ¬ ptr <:+ outer.node)
    (run : tileLoops ctx ptr (fun loops t => do
      let t ← tileChildren ctx ptr 0 cs loops (t.setRow ptr [])
      PerfAnalysis.pushRow ptr t) dims loops t = .ok t') (agree : Agree ctx.ev t u)
    (rows : ptr = [] → u.latency_vec_ ptr = t.latency_vec_ ptr)
    (left : Left ctx.ev (fun q => ptr <:+ q ∧ q ≠ ptr) t' u) :
    ∃ u', tileLoops ctx ptr (fun loops t => do
      let t ← tileChildren ctx ptr 0 cs loops (t.setRow ptr [])
      PerfAnalysis.pushRow ptr t) dims loops u = .ok u' ∧ Agree ctx.ev t' u' ∧ Entered ptr t' u' := by
  have inside : Inside ctx.ev ptr [] t u := ⟨agree, fun name member => by cases member⟩
  by_cases deep : ctx.ev.Deep
  · have units : ∀ loop ∈ dims, loop.start = 0 ∧ loop.residual_end = 1 := by
      rw [← dims_eq]
      exact single deep ptr tile
    have last : LastAbove ptr loops := fun outer member => ⟨(ready deep outer member).1,
      fun i under => (ready deep outer member).2 ((List.suffix_cons i ptr).trans under)⟩
    have outside : isFirst ptr loops = true := by
      apply isFirst_of_outside
      rintro outer member rfl
      exact (ready deep outer member).2 List.suffix_rfl
    have rules : BodyAgain ctx ptr (LastAbove ptr)
        (Left ctx.ev fun q => ptr <:+ q ∧ q ≠ ptr) (fun loops t => do
          let t ← tileChildren ctx ptr 0 cs loops (t.setRow ptr [])
          PerfAnalysis.pushRow ptr t) :=
      ⟨fun loops t t' u last run agree entered left =>
        body_again children (fun _ => last) run agree entered left,
        fun loops t t' run => (body_self run).1⟩
    obtain ⟨u', run', inside', entered⟩ := tileLoops_once tile.1 rules
      (fun t t' u u' first second left q below inner => by
        rw [first, second]
        exact left q below inner) dims units loops [] t t' u last outside run inside left
    exact ⟨u', run', inside'.agree, entered⟩
  · have root : ptr = [] := by
      by_contra inner
      exact deep ⟨ptr, inner, tile⟩
    have none {t' u : Tally} : Left ctx.ev (fun q => ptr <:+ q ∧ q ≠ ptr) t' u := by
      rintro q ⟨_, inner⟩ runs
      exact absurd ⟨q, root ▸ inner, runs⟩ deep
    have rules : BodyAgain ctx ptr (fun _ => True) (fun _ _ => True) (fun loops t => do
          let t ← tileChildren ctx ptr 0 cs loops (t.setRow ptr [])
          PerfAnalysis.pushRow ptr t) :=
      ⟨fun loops t t' u _ run agree entered _ =>
        body_again children (fun inner => absurd inner deep) run agree entered none,
        fun loops t t' run => (body_self run).1⟩
    obtain ⟨u', run', inside', entered⟩ := tileLoops_many tile.1 rules dims loops [] t t' u run inside
      ⟨rows root, fun inner => absurd root inner⟩
    exact ⟨u', run', inside'.agree, entered⟩

theorem finishTile_again (tile : ctx.ev.get_type ptr = .Tile) (agree : Agree ctx.ev t u)
    (entered : Entered ptr t u) (call : PerfAnalysis.finishTile ctx ptr t = .ok t')
    (held : u.process_latency_ ptr = t'.process_latency_ ptr) :
    ∃ u', PerfAnalysis.finishTile ctx ptr u = .ok u' ∧ Replayed ctx.ev ptr t' u' := by
  obtain ⟨latency, computed, rfl⟩ := finishTile_eq_ok call
  have again : PerfAnalysis.finishTile ctx ptr u = .ok (if latency ≠ 0 then
      (u.record (.compute ptr (u.latency_vec_ ptr))).setProcessLatency ptr latency
      else u.record (.compute ptr (u.latency_vec_ ptr))) := by
    rw [PerfAnalysis.finishTile, entered.rows, computed]
    rfl
  refine ⟨_, again, ?_⟩
  by_cases zero : latency = 0
  · simp only [zero, ne_eq, not_true, if_false] at held ⊢
    refine ⟨agree.record _ _, held, fun inner => ?_, by simp [tile]⟩
    obtain ⟨ins, outs⟩ := entered.transfers inner
    simp only [Tally.latencyOf, Tally.record] at held ⊢
    rw [ins, outs, held]
  · simp only [zero, ne_eq, not_false_eq_true, if_true]
    refine ⟨agree.of_other ptr (by simp [tile]) agree.tensors agree.dim_skew agree.data_movements_
      ?_ ?_, ?_, fun inner => ?_, by simp [tile]⟩
    · intro q apart
      simp [Tally.latencyOf, Tally.setProcessLatency, Tally.record, apart]
    · intro q apart
      simp [Tally.latencyOf, Tally.setProcessLatency, Tally.record, apart]
    · simp [Tally.setProcessLatency]
    · obtain ⟨ins, outs⟩ := entered.transfers inner
      simp [Tally.latencyOf, Tally.setProcessLatency, Tally.record, ins, outs]

/-- What a visit does again, from the rows the root started with. -/
def VisitAgain (ctx : PerfContext) (ptr : NodePtr) (sub : Node) : Prop :=
  ∀ loops t t' u,
    (ctx.ev.Deep → ∀ outer ∈ loops, outer.is_last = true ∧ ¬ ptr <:+ outer.node) →
    visit ctx ptr sub loops t = .ok t' → Agree ctx.ev t u →
    (ptr = [] → u.latency_vec_ ptr = t.latency_vec_ ptr) →
    Left ctx.ev (fun q => ptr <:+ q) t' u →
      ∃ u', visit ctx ptr sub loops u = .ok u' ∧ Replayed ctx.ev ptr t' u'

theorem child_again {i : Nat} {c : Node} {mid : Tally} (first : VisitAgain ctx (i :: ptr) c)
    (ready : ctx.ev.Deep → LastAbove ptr loops) (run : visit ctx (i :: ptr) c loops t = .ok mid)
    (agree : Agree ctx.ev t u) (row : u.latency_sub_vec_ ptr = t.latency_sub_vec_ ptr)
    (later : ∀ q, (i :: ptr) <:+ q → t'.dataAt q = mid.dataAt q)
    (left : Left ctx.ev (fun q => ∃ k, i ≤ k ∧ (k :: ptr) <:+ q) t' u) :
    ∃ mid', visit ctx (i :: ptr) c loops u = .ok mid' ∧ Replayed ctx.ev (i :: ptr) mid mid' ∧
      mid'.latency_sub_vec_ ptr = mid.latency_sub_vec_ ptr ∧
        Left ctx.ev (fun q => ∃ k, i + 1 ≤ k ∧ (k :: ptr) <:+ q) t' mid' := by
  obtain ⟨mid', run', replayed⟩ := first loops t mid u
    (fun deep outer member => ⟨(ready deep outer member).1, (ready deep outer member).2 i⟩) run agree
    (fun root => absurd root (List.cons_ne_nil i ptr)) (fun q under runs =>
      (left q ⟨i, Nat.le_refl i, under⟩ runs).trans
        (congrArg NodeData.process_latency_ (later q under)))
  have kept := visit_keeps (i :: ptr) c loops t mid run ptr (not_suffix_of_cons i ptr)
  have kept' := visit_keeps (i :: ptr) c loops u mid' run' ptr (not_suffix_of_cons i ptr)
  refine ⟨mid', run', replayed, ?_, ?_⟩
  · exact (congrArg NodeData.latency_sub_vec_ kept').trans
      (row.trans (congrArg NodeData.latency_sub_vec_ kept).symm)
  · rintro q ⟨k, bound, under⟩ runs
    have other := visit_sibling (show i ≠ k by omega) under run'
    exact (congrArg NodeData.process_latency_ other).trans (left q ⟨k, by omega, under⟩ runs)

theorem visit_again (single : ctx.ev.Deep → SingleTiles ctx.ev) (ptr : NodePtr) (sub : Node)
    (found : ctx.ev.root_.get? ptr = some sub) : VisitAgain ctx ptr sub := by
  induction ptr, sub using Rose.position_induction₂
    (S := fun ptr i cs => ChildrenAt ctx.ev ptr i cs →
      ChildrenAgain ctx ptr i (scopeChildren ctx ptr i cs))
    (T := fun ptr i cs => ChildrenAt ctx.ev ptr i cs →
      ChildrenAgain ctx ptr i (tileChildren ctx ptr i cs)) with
  | node ptr info cs scope tile =>
    intro loops t t' u ready run agree rows left
    have kind_eq : ctx.ev.get_type ptr = info.kind.type_ := by
      rw [Evaluator.get_type, Evaluator.ori_node_of_get? found]
      rfl
    rw [visit] at run ⊢
    obtain ⟨mid, inside, result⟩ := bind_eq_ok.mp run
    cases result
    have start := agree.record (.enter ptr ptr loops t.dim_skew) (.enter ptr ptr loops u.dim_skew)
    suffices again : ∃ mid', _ = Except.ok mid' ∧ Replayed ctx.ev ptr mid mid' by
      obtain ⟨mid', here, replayed⟩ := again
      refine ⟨mid'.record (.leave ptr (up ptr)), ?_, replayed.agree.record _ _, replayed.process,
        replayed.latency, replayed.row⟩
      exact bind_eq_ok.mpr ⟨mid', here, rfl⟩
    have below : ∀ k, ¬ (k :: ptr) <:+ ptr := fun k => not_suffix_of_cons k ptr
    obtain ⟨name_, level, mode, kind⟩ := info
    cases kind with
    | Op ops =>
      cases inside
      exact ⟨_, rfl, opTally_agree kind_eq start⟩
    | Trans => exact transTally_agree kind_eq start inside
    | Scope type =>
      obtain ⟨after, children, finish⟩ := bind_eq_ok.mp inside
      have last : ctx.ev.Deep → LastAbove ptr loops := fun deep outer member =>
        ⟨(ready deep outer member).1,
          fun i under => (ready deep outer member).2 ((List.suffix_cons i ptr).trans under)⟩
      unfold finishScope at finish
      split at finish
      · cases finish
      · next present =>
        cases finish
        obtain ⟨after', children', agree', row⟩ := scope (childrenAt_zero found) loops _ after _ last
          children (start.setRow [] []) (by simp [Tally.setRow]) (by
            rintro q ⟨k, _, under⟩ runs
            exact left q ((List.suffix_cons k ptr).trans under) runs)
        refine ⟨after'.setRows ptr (after'.latency_vec_ ptr ++ [after'.latency_sub_vec_ ptr]), ?_,
          agree'.setRows _ _, ?_, fun _ => agree'.scopes ptr kind_eq, fun _ => row⟩
        · refine bind_eq_ok.mpr ⟨after', children', ?_⟩
          rw [finishScope, row, if_neg present]
        · exact congrArg Latency.process_latency_ (agree'.scopes ptr kind_eq)
    | Tile type dims =>
      cases dims with
      | nil => cases inside
      | cons loop rest =>
        obtain ⟨after, nested, finish⟩ := bind_eq_ok.mp inside
        have dims_eq : ctx.ev.loopnests_ ptr = loop :: rest := by
          rw [Evaluator.loopnests_, Evaluator.ori_node_of_get? found]
          rfl
        have runs : ctx.ev.RunsTile ptr := ⟨kind_eq, by rw [dims_eq]; exact List.cons_ne_nil _ _⟩
        have same {q : NodePtr} (apart : q ≠ ptr) :
            mid.process_latency_ q = after.process_latency_ q := by
          obtain ⟨latency, _, rfl⟩ := finishTile_eq_ok finish
          split
          · simp [Tally.setProcessLatency, Tally.record, apart]
          · rfl
        obtain ⟨after', nested', agree', entered⟩ := loops_again single runs dims_eq
          (tile (childrenAt_zero found)) ready nested start rows (by
            rintro q ⟨under, apart⟩ inner
            exact (left q under inner).trans (same apart))
        have kept := tileLoops_process (fun loops t t' body => (body_self body).2) (loop :: rest) loops
          _ after' nested'
        obtain ⟨mid', finish', replayed⟩ := finishTile_again kind_eq agree' entered finish
          (kept.trans (left ptr List.suffix_rfl runs))
        exact ⟨mid', bind_eq_ok.mpr ⟨after', nested', finish'⟩, replayed⟩
  | first_nil ptr i =>
    intro loops t t' u ready run agree row left
    cases run
    exact ⟨u, rfl, agree, row⟩
  | first_cons ptr i c cs first rest =>
    rename_i placed
    intro loops t t' u ready run agree row left
    rw [scopeChildren] at run ⊢
    obtain ⟨mid, child, others⟩ := bind_eq_ok.mp run
    have later : ∀ q, (i :: ptr) <:+ q → t'.dataAt q = mid.dataAt q := by
      intro q under
      rw [scopeChildren_before (Nat.lt_succ_self i) under others]
      split
      · rfl
      · exact Tally.dataAt_setRow (ne_of_cons_suffix under) _
    obtain ⟨mid', child', replayed, row', left'⟩ := child_again (first placed.head) ready child agree
      row later left
    simp only [child', ok_bind] at others ⊢
    by_cases trans : ctx.ev.get_type (i :: ptr) = .Trans
    · rw [if_pos trans] at others ⊢
      exact rest placed.tail loops mid t' mid' ready others replayed.agree row' left'
    · rw [if_neg trans] at others ⊢
      refine rest placed.tail loops _ t' _ ready others (replayed.agree.setRow _ _) ?_ left'
      simp only [Tally.setRow, Function.update_self, row',
        replayed.latency (List.cons_ne_nil i ptr)]
  | second_nil ptr i =>
    intro loops t t' u ready run agree row left
    cases run
    exact ⟨u, rfl, agree, row⟩
  | second_cons ptr i c cs first rest =>
    rename_i placed
    intro loops t t' u ready run agree row left
    rw [tileChildren] at run ⊢
    obtain ⟨mid, child, others⟩ := bind_eq_ok.mp run
    have later : ∀ q, (i :: ptr) <:+ q → t'.dataAt q = mid.dataAt q := by
      intro q under
      split at others
      · cases others
        exact Tally.dataAt_setRow (ne_of_cons_suffix under) _
      · rw [tileChildren_before (Nat.lt_succ_self i) under others]
        exact Tally.dataAt_setRow (ne_of_cons_suffix under) _
    obtain ⟨mid', child', replayed, row', left'⟩ := child_again (first placed.head) ready child agree
      row later left
    simp only [child', ok_bind] at others ⊢
    by_cases scope : ctx.ev.get_type (i :: ptr) = .Scope
    · rw [if_pos scope] at others ⊢
      cases others
      refine ⟨_, rfl, replayed.agree.setRow _ _, ?_⟩
      simp only [Tally.setRow, Function.update_self, replayed.row scope]
    · rw [if_neg scope] at others ⊢
      refine rest placed.tail loops _ t' _ ready others (replayed.agree.setRow _ _) ?_ left'
      simp only [Tally.setRow, Function.update_self, row',
        replayed.latency (List.cons_ne_nil i ptr)]

end LoopNest

end TileExp.Analysis
