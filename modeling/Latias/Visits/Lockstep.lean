import Latias.Visits.Restored

/-! The visitors with two assertions: a visit starts with `current_node_` at its node, and returns
    with `current_node_` at the parent. -/

namespace TileExp.Analysis

open Checked

variable {σ : Type}

def assertAt (current_node_ node : NodePtr) : Exec Unit :=
  tileexpAssert (current_node_ = node) "current_node_ out of step"

mutual

/-- `traverse` with the assertions. `ptr` is the node itself, apart from `current_node_`. -/
def traverseChecked (ev : Evaluator) (before after : Node → NodePtr → σ → Exec σ)
    (ptr : NodePtr) : Node → NodePtr × σ → Exec (NodePtr × σ)
  | .mk info cs => fun (current_node_, s) => do
    assertAt current_node_ ptr
    let s ← before (.mk info cs) current_node_ s
    let (current_node_, s) ← traverseChildrenChecked ev before after ptr 0 cs (current_node_, s)
    let s ← after (.mk info cs) current_node_ s
    assertAt (up current_node_) (up ptr)
    .ok (up current_node_, s)

def traverseChildrenChecked (ev : Evaluator) (before after : Node → NodePtr → σ → Exec σ)
    (ptr : NodePtr) : Nat → List Node → NodePtr × σ → Exec (NodePtr × σ)
  | _, [] => fun s => .ok s
  | i, c :: cs => fun (current_node_, s) => do
    let current_node_ ← ev.child current_node_ i
    let s ← traverseChecked ev before after (i :: ptr) c (current_node_, s)
    traverseChildrenChecked ev before after ptr (i + 1) cs s

end

variable {ev : Evaluator} {before after : Node → NodePtr → σ → Exec σ} {node ptr : NodePtr}

theorem assertAt_self (node : NodePtr) : assertAt node node = .ok () := if_pos rfl

theorem traverseChildren_ends (cs : List Node)
    (each : ∀ c ∈ cs, ∀ i, ev.root_.get? (i :: ptr) = some c → ∀ s current s',
      traverse ev before after c (i :: ptr, s) = .ok (current, s') → current = ptr) :
    ∀ i, ChildrenAt ev ptr i cs → ∀ s current s',
      traverseChildren ev before after i cs (ptr, s) = .ok (current, s') → current = ptr := by
  induction cs with
  | nil =>
    intro i _ s current s' run
    cases run
    rfl
  | cons c cs ih =>
    intro i placed s current s' run
    rw [traverseChildren] at run
    simp only [Evaluator.child_of_get? placed.head, ok_bind] at run
    obtain ⟨⟨at_child, s₁⟩, child, run⟩ := bind_eq_ok.mp run
    cases each c List.mem_cons_self i placed.head s at_child s₁ child
    exact ih (fun c member => each c (List.mem_cons_of_mem _ member)) (i + 1) placed.tail s₁ current
      s' run

theorem traverse_returns (sub : Node) : ∀ ptr, ev.root_.get? ptr = some sub →
    ∀ s current s', traverse ev before after sub (ptr, s) = .ok (current, s') → current = up ptr := by
  induction sub using Rose.children_induction with
  | step info cs ih =>
    intro ptr found s current s' run
    rw [traverse] at run
    obtain ⟨s₁, _, run⟩ := bind_eq_ok.mp run
    obtain ⟨⟨at_end, s₂⟩, walked, run⟩ := bind_eq_ok.mp run
    obtain ⟨s₃, _, run⟩ := bind_eq_ok.mp run
    cases run
    rw [traverseChildren_ends cs (fun c member i => ih c member (i :: ptr)) 0 (childrenAt_zero found)
      s₁ at_end s₂ walked]

theorem traverseChecked_eq (ptr : NodePtr) (sub : Node) (found : ev.root_.get? ptr = some sub) :
    ∀ s, traverseChecked ev before after ptr sub (ptr, s) = traverse ev before after sub (ptr, s) := by
  induction ptr, sub using Rose.position_induction (S := fun ptr i cs => ChildrenAt ev ptr i cs →
    ∀ s, traverseChildrenChecked ev before after ptr i cs (ptr, s) =
      traverseChildren ev before after i cs (ptr, s)) with
  | node ptr info cs children =>
    intro s
    have placed := childrenAt_zero found
    rw [traverseChecked, traverse]
    simp only [assertAt_self, ok_bind]
    apply bind_congr
    intro s₁
    rw [children placed s₁]
    apply bind_congr_of_ok
    rintro ⟨current, s₂⟩ walked
    rw [traverseChildren_ends cs (fun c _ i => traverse_returns c (i :: ptr)) 0 placed s₁ current s₂
      walked]
    simp only [assertAt_self, ok_bind]
  | nil ptr i => rfl
  | cons ptr i c cs first rest =>
    rename_i placed s
    rw [traverseChildrenChecked, traverseChildren]
    simp only [Evaluator.child_of_get? placed.head, ok_bind, first placed.head s]
    apply bind_congr_of_ok
    rintro ⟨current, s₁⟩ child
    cases traverse_returns c _ placed.head s current s₁ child
    exact rest placed.tail s₁

def GetLoopCount.runChecked (ev : Evaluator) (tree : EvaTree) : Exec EvaTree := do
  let (current_node_, inherit_loopnests_) ←
    traverseChecked ev (visit ev) (fun _ _ s => .ok s) [] ev.root_ ([], tree.inherit_loopnests_)
  assertAt current_node_ []
  .ok { tree with inherit_loopnests_ }

def InitAnalysis.passesChecked (ev : Evaluator) (s : NodePtr × InitState) :
    Exec (NodePtr × InitState) := do
  let s ← traverseChecked ev (initOffset ev) (fun _ _ s => .ok s) [] ev.root_ s
  let s ← traverseChecked ev (fun _ _ s => .ok s) (getOffset ev) [] ev.root_ s
  let s ← traverseChecked ev (fun _ _ s => .ok s) (initOpTensor ev) [] ev.root_ s
  let s ← traverseChecked ev (fun _ _ s => .ok s) (initTensor ev) [] ev.root_ s
  assertAt s.1 []
  .ok s

namespace PerfAnalysis

variable (ctx : PerfContext)

mutual

def visitChecked (ptr : NodePtr) : Node → PerfState → Exec PerfState
  | .mk info cs => fun s => do
    assertAt s.walk.current_node_ ptr
    let s : PerfState := ⟨s.walk, s.tally.record
      (.enter ptr s.walk.current_node_ s.walk.current_loop_state_ s.tally.dim_skew)⟩
    let s ← match info.kind with
      | .Op _ => .ok (ascend ⟨s.walk, opTally ctx s.walk s.tally⟩)
      | .Trans => do
        let t ← transTally ctx s.walk s.tally
        .ok (ascend ⟨s.walk, t⟩)
      | .Scope _ => do
        let s ← scopeChildrenChecked ptr 0 cs ⟨s.walk, s.tally.setRow s.walk.current_node_ []⟩
        let node := s.walk.current_node_
        let row := s.tally.latency_sub_vec_ node
        if row = [] then .error .outOfRange
        else .ok (ascend ⟨s.walk, s.tally.setRows node (s.tally.latency_vec_ node ++ [row])⟩)
      | .Tile _ loops =>
        visitTileLoop ctx (get_parent ptr).isNone loops.length
          (fun s => do
            let s ← tileChildrenChecked ptr 0 cs ⟨s.walk, s.tally.setRow s.walk.current_node_ []⟩
            let t ← pushRow s.walk.current_node_ s.tally
            .ok ⟨s.walk, t⟩) loops.length s
    assertAt s.walk.current_node_ (up ptr)
    .ok ⟨s.walk, s.tally.record (.leave ptr s.walk.current_node_)⟩

def scopeChildrenChecked (ptr : NodePtr) : Nat → List Node → PerfState → Exec PerfState
  | _, [] => fun s => .ok s
  | i, c :: cs => fun s => do
    let s ← descend ctx i s
    let s ← visitChecked (i :: ptr) c s
    let node := s.walk.current_node_
    let child ← ctx.ev.child node i
    let t :=
      if ctx.ev.get_type child = .Trans then s.tally
      else s.tally.setRow node (s.tally.latency_sub_vec_ node ++ [s.tally.latencyOf child])
    scopeChildrenChecked ptr (i + 1) cs ⟨s.walk, t⟩

def tileChildrenChecked (ptr : NodePtr) : Nat → List Node → PerfState → Exec PerfState
  | _, [] => fun s => .ok s
  | i, c :: cs => fun s => do
    let s ← descend ctx i s
    let s ← visitChecked (i :: ptr) c s
    let node := s.walk.current_node_
    let child ← ctx.ev.child node i
    if ctx.ev.get_type child = .Scope then
      .ok ⟨s.walk, s.tally.setRow node (s.tally.latency_sub_vec_ child)⟩
    else
      tileChildrenChecked ptr (i + 1) cs
        ⟨s.walk, s.tally.setRow node (s.tally.latency_sub_vec_ node ++ [s.tally.latencyOf child])⟩

end

def runChecked (ev : Evaluator) (tree : EvaTree) (leaf_vec_ : List NodePtr) : Exec PerfState := do
  let s ← visitChecked ⟨ev, tree.toEvaOffsets, leaf_vec_⟩ [] ev.root_ (initial tree)
  assertAt s.walk.current_node_ []
  .ok s

variable {ctx} {w : Walk} {t : Tally} {s s' : PerfState}

def StaysAt (node : NodePtr) (run : PerfState → Exec PerfState) : Prop :=
  ∀ s s', s.walk.current_node_ = node → run s = .ok s' → s'.walk.current_node_ = node

def SameAt (node : NodePtr) (run run' : PerfState → Exec PerfState) : Prop :=
  ∀ s, s.walk.current_node_ = node → run s = run' s

theorem runInner_same {innermost : Prop} [Decidable innermost] {inner inner' : PerfState → Exec PerfState}
    (same : SameAt node inner inner') (here : w.current_node_ = node) :
    runInner ctx node innermost inner w t = runInner ctx node innermost inner' w t := by
  unfold runInner
  split
  · exact bind_congr fun t => same ⟨w, t⟩ here
  · exact same ⟨w, t⟩ here

theorem runInner_stays {innermost : Prop} [Decidable innermost] {inner : PerfState → Exec PerfState}
    (stays : StaysAt node inner) (here : w.current_node_ = node)
    (run : runInner ctx node innermost inner w t = .ok s') : s'.walk.current_node_ = node := by
  unfold runInner at run
  split at run
  · obtain ⟨t', _, run⟩ := bind_eq_ok.mp run
    exact stays ⟨w, t'⟩ s' here run
  · exact stays ⟨w, t⟩ s' here run

theorem tileIteration_same {idx dim_bound : Nat} {loop : Descriptor} {ori_start loop_end : Int}
    {inner inner' : PerfState → Exec PerfState} (same : SameAt node inner inner') :
    SameAt node (tileIteration ctx node idx dim_bound loop ori_start loop_end inner)
      (tileIteration ctx node idx dim_bound loop ori_start loop_end inner') := by
  intro s here
  rw [tileIteration_eq s here, tileIteration_eq s here, runInner_same same]
  exact here

theorem tileIteration_stays {idx dim_bound : Nat} {loop : Descriptor} {ori_start loop_end : Int}
    {inner : PerfState → Exec PerfState} (stays : StaysAt node inner) :
    StaysAt node (tileIteration ctx node idx dim_bound loop ori_start loop_end inner) := by
  intro s s' here run
  rw [tileIteration_eq s here] at run
  obtain ⟨s₁, nested, result⟩ := bind_eq_ok.mp run
  have current : s₁.walk.current_node_ = node := runInner_stays stays (by exact here) nested
  cases result
  exact current

theorem iterate_same {run run' : PerfState → Exec PerfState} (same : SameAt node run run')
    (stays : StaysAt node run') (n : Nat) : SameAt node (iterate run n) (iterate run' n) := by
  induction n with
  | zero => exact fun s _ => rfl
  | succ n ih =>
    intro s here
    rw [iterate, iterate, same s here]
    exact bind_congr_of_ok fun s₁ step => ih s₁ (stays s s₁ here step)

/-- The loops of a Tile depend on what is done inside them at the node only; those from an inner
    dimension on end at the node. -/
theorem visitTileLoop_same {is_root : Bool} {dim_bound : Nat} {children children' : PerfState → Exec PerfState}
    (same : SameAt node children children') (stays : StaysAt node children') (rest : Nat)
    (bound : rest ≤ dim_bound) :
    SameAt node (visitTileLoop ctx is_root dim_bound children rest)
        (visitTileLoop ctx is_root dim_bound children' rest) ∧
      (rest < dim_bound → StaysAt node (visitTileLoop ctx is_root dim_bound children' rest)) := by
  induction rest with
  | zero =>
    refine ⟨fun s _ => rfl, fun _ s s' _ run => ?_⟩
    cases run
  | succ rest ih =>
    obtain ⟨inner_same, inner_stays⟩ := ih (by omega)
    have same_inside : SameAt node
        (if rest = 0 then children else visitTileLoop ctx is_root dim_bound children rest)
        (if rest = 0 then children' else visitTileLoop ctx is_root dim_bound children' rest) := by
      split
      · exact same
      · exact inner_same
    have stays_inside : StaysAt node
        (if rest = 0 then children' else visitTileLoop ctx is_root dim_bound children' rest) := by
      split
      · exact stays
      · exact inner_stays (by omega)
    constructor
    · intro s here
      rw [visitTileLoop, visitTileLoop]
      simp only [here]
      split
      · rfl
      · apply bind_congr
        intro _
        rw [iterate_same (tileIteration_same same_inside) (tileIteration_stays stays_inside) _ _
          (by exact here)]
    · intro more s s' here run
      rw [visitTileLoop] at run
      simp only [here] at run
      split at run
      · cases run
      · next loop _ =>
        obtain ⟨_, _, run⟩ := bind_eq_ok.mp run
        obtain ⟨s₁, looped, run⟩ := bind_eq_ok.mp run
        have current : s₁.walk.current_node_ = node := by
          apply iterate_induction looped (fun _ s => s.walk.current_node_ = node) here
          exact fun _ s s' _ at_node step => tileIteration_stays stays_inside s s' at_node step
        rw [if_neg (by omega)] at run
        cases run
        exact current

theorem visit_returns (sub : Node) (found : ctx.ev.root_.get? ptr = some sub)
    (here : s.walk.current_node_ = ptr) (run : visit ctx ptr sub s = .ok s') :
    s'.walk.current_node_ = up ptr := by
  rw [(visit_restored ptr sub found s s' here run).walk]
  rfl

theorem tileChildren_stays (cs : List Node) :
    ∀ i, ChildrenAt ctx.ev ptr i cs → StaysAt ptr (tileChildren ctx ptr i cs) := by
  induction cs with
  | nil =>
    intro i _ s s' here run
    cases run
    exact here
  | cons c cs ih =>
    intro i placed s s' here run
    rw [tileChildren] at run
    simp only [descend_child placed.head here, ok_bind] at run
    obtain ⟨s₁, child, run⟩ := bind_eq_ok.mp run
    have current : s₁.walk.current_node_ = ptr := visit_returns c placed.head rfl child
    simp only [current, Evaluator.child_of_get? placed.head, ok_bind] at run
    split at run
    · cases run
      exact current
    · exact ih (i + 1) placed.tail _ s' (by exact current) run

theorem scopeChildren_stays (cs : List Node) :
    ∀ i, ChildrenAt ctx.ev ptr i cs → StaysAt ptr (scopeChildren ctx ptr i cs) := by
  induction cs with
  | nil =>
    intro i _ s s' here run
    cases run
    exact here
  | cons c cs ih =>
    intro i placed s s' here run
    rw [scopeChildren] at run
    simp only [descend_child placed.head here, ok_bind] at run
    obtain ⟨s₁, child, run⟩ := bind_eq_ok.mp run
    have current : s₁.walk.current_node_ = ptr := visit_returns c placed.head rfl child
    simp only [current, Evaluator.child_of_get? placed.head, ok_bind] at run
    exact ih (i + 1) placed.tail _ s' (by exact current) run

theorem assertAt_ascend {s : PerfState} (here : s.walk.current_node_ = ptr) :
    assertAt (ascend s).walk.current_node_ (up ptr) = .ok () := by
  rw [← here]
  exact assertAt_self _

theorem visitChecked_eq (ptr : NodePtr) (sub : Node) (found : ctx.ev.root_.get? ptr = some sub) :
    SameAt ptr (visitChecked ctx ptr sub) (visit ctx ptr sub) := by
  induction ptr, sub using Rose.position_induction₂
    (S := fun ptr i cs => ChildrenAt ctx.ev ptr i cs →
      SameAt ptr (scopeChildrenChecked ctx ptr i cs) (scopeChildren ctx ptr i cs))
    (T := fun ptr i cs => ChildrenAt ctx.ev ptr i cs →
      SameAt ptr (tileChildrenChecked ctx ptr i cs) (tileChildren ctx ptr i cs)) with
  | node ptr info cs scope tile =>
    intro s here
    have placed := childrenAt_zero found
    obtain ⟨name_, level, mode, kind⟩ := info
    rw [visitChecked, visit]
    simp only [here, assertAt_self, ok_bind]
    cases kind with
    | Op ops =>
      simp only
      rw [assertAt_ascend (by exact here), ok_bind]
    | Trans =>
      simp only
      apply bind_congr
      intro t
      rw [assertAt_ascend (by exact here), ok_bind]
    | Scope type =>
      simp only
      rw [scope placed _ (by exact here)]
      apply bind_congr_of_ok
      intro s₁ children
      have current := scopeChildren_stays cs 0 placed _ s₁ (by exact here) children
      split
      · rfl
      · rw [assertAt_ascend (by exact current), ok_bind]
    | Tile type dims =>
      simp only
      have stays : StaysAt ptr (fun s => do
          let s ← tileChildren ctx ptr 0 cs ⟨s.walk, s.tally.setRow s.walk.current_node_ []⟩
          let t ← pushRow s.walk.current_node_ s.tally
          .ok ⟨s.walk, t⟩) := by
        intro s s' here run
        obtain ⟨s₁, children, run⟩ := bind_eq_ok.mp run
        obtain ⟨t, _, run⟩ := bind_eq_ok.mp run
        have current := tileChildren_stays cs 0 placed _ s₁ (by exact here) children
        cases run
        exact current
      have same : SameAt ptr (fun s => do
          let s ← tileChildrenChecked ctx ptr 0 cs ⟨s.walk, s.tally.setRow s.walk.current_node_ []⟩
          let t ← pushRow s.walk.current_node_ s.tally
          .ok ⟨s.walk, t⟩) (fun s => do
          let s ← tileChildren ctx ptr 0 cs ⟨s.walk, s.tally.setRow s.walk.current_node_ []⟩
          let t ← pushRow s.walk.current_node_ s.tally
          .ok ⟨s.walk, t⟩) := by
        intro s here
        simp only
        rw [tile placed _ (by exact here)]
      rw [(visitTileLoop_same same stays dims.length (Nat.le_refl _)).1 _ (by exact here)]
      apply bind_congr_of_ok
      intro s₁ loops
      have run : visit ctx ptr (.mk ⟨name_, level, mode, .Tile type dims⟩ cs) s =
          .ok ⟨s₁.walk, s₁.tally.record (.leave ptr s₁.walk.current_node_)⟩ := by
        rw [visit]
        simp only [here, loops, ok_bind]
      have current : s₁.walk.current_node_ = up ptr := by
        have whole := visit_returns _ found here run
        exact whole
      rw [current, assertAt_self, ok_bind]
  | first_nil ptr i => exact fun s _ => rfl
  | first_cons ptr i c cs first rest =>
    rename_i placed
    intro s here
    rw [scopeChildrenChecked, scopeChildren]
    simp only [descend_child placed.head here, ok_bind]
    rw [first placed.head _ rfl]
    apply bind_congr_of_ok
    intro s₁ child
    have current : s₁.walk.current_node_ = ptr := visit_returns c placed.head rfl child
    simp only [current, Evaluator.child_of_get? placed.head, ok_bind]
    exact rest placed.tail _ current
  | second_nil ptr i => exact fun s _ => rfl
  | second_cons ptr i c cs first rest =>
    rename_i placed
    intro s here
    rw [tileChildrenChecked, tileChildren]
    simp only [descend_child placed.head here, ok_bind]
    rw [first placed.head _ rfl]
    apply bind_congr_of_ok
    intro s₁ child
    have current : s₁.walk.current_node_ = ptr := visit_returns c placed.head rfl child
    simp only [current, Evaluator.child_of_get? placed.head, ok_bind]
    split
    · rfl
    · exact rest placed.tail _ current

end PerfAnalysis

theorem GetLoopCount.runChecked_eq (ev : Evaluator) (tree : EvaTree) :
    GetLoopCount.runChecked ev tree = GetLoopCount.run ev tree := by
  rw [GetLoopCount.runChecked, GetLoopCount.run, traverseChecked_eq [] ev.root_ rfl]
  apply bind_congr_of_ok
  rintro ⟨current, inherited⟩ walked
  cases traverse_returns ev.root_ [] rfl _ current inherited walked
  rfl

theorem assertAt_end {α : Type} {x : Exec α} {at_end : α → NodePtr}
    (ends : ∀ a, x = .ok a → at_end a = []) :
    (do let a ← x; assertAt (at_end a) []; .ok a) = x := by
  cases x with
  | error fault => rfl
  | ok a =>
    rw [ok_bind, ends a rfl]
    rfl

theorem InitAnalysis.passesChecked_eq (ev : Evaluator) (s : InitState) :
    InitAnalysis.passesChecked ev ([], s) = InitAnalysis.passes ev ([], s) := by
  have ends {before after : Node → NodePtr → InitState → Exec InitState} {s s' : InitState}
      {current : NodePtr} (walked : traverse ev before after ev.root_ ([], s) = .ok (current, s')) :
      current = [] := traverse_returns ev.root_ [] rfl s current s' walked
  rw [InitAnalysis.passesChecked, InitAnalysis.passes, traverseChecked_eq [] ev.root_ rfl]
  apply bind_congr_of_ok
  rintro ⟨current, s₁⟩ first
  cases ends first
  rw [traverseChecked_eq [] ev.root_ rfl]
  apply bind_congr_of_ok
  rintro ⟨current, s₂⟩ second
  cases ends second
  rw [traverseChecked_eq [] ev.root_ rfl]
  apply bind_congr_of_ok
  rintro ⟨current, s₃⟩ third
  cases ends third
  rw [traverseChecked_eq [] ev.root_ rfl]
  exact assertAt_end fun s fourth => ends fourth

theorem PerfAnalysis.run_ends {tree : EvaTree} {leaf_vec_ : List NodePtr} {s : PerfState}
    (walked : PerfAnalysis.run ev tree leaf_vec_ = .ok s) : s.walk.current_node_ = [] :=
  @PerfAnalysis.visit_returns [] ⟨ev, tree.toEvaOffsets, leaf_vec_⟩ (initial tree) s ev.root_ rfl rfl
    walked

theorem PerfAnalysis.runChecked_eq (ev : Evaluator) (tree : EvaTree) (leaf_vec_ : List NodePtr) :
    PerfAnalysis.runChecked ev tree leaf_vec_ = PerfAnalysis.run ev tree leaf_vec_ := by
  rw [PerfAnalysis.runChecked, PerfAnalysis.run, PerfAnalysis.visitChecked_eq [] ev.root_ rfl _ rfl]
  exact assertAt_end fun s walked => PerfAnalysis.run_ends walked

/-- The two trees are walked in lockstep: in every pass, on every tree and from every state, each
    visit starts at its node and returns at the parent, the pass ends at the root, and the latency
    of an evaluation is that of the root. -/
theorem walked_in_lockstep (ev : Evaluator) :
    (∀ tree, GetLoopCount.runChecked ev tree = GetLoopCount.run ev tree) ∧
      (∀ s, InitAnalysis.passesChecked ev ([], s) = InitAnalysis.passes ev ([], s)) ∧
      (∀ tree leaf_vec_, PerfAnalysis.runChecked ev tree leaf_vec_ =
        PerfAnalysis.run ev tree leaf_vec_) ∧
      ∀ state state', ev.analysis_latias state = .ok state' →
        state'.latency_ = state'.tree.process_latency_ [] := by
  refine ⟨GetLoopCount.runChecked_eq ev, InitAnalysis.passesChecked_eq ev,
    PerfAnalysis.runChecked_eq ev, fun state state' run => ?_⟩
  obtain ⟨s, walked, result⟩ := bind_eq_ok.mp run
  cases result
  have current : s.walk.current_node_ = [] := PerfAnalysis.run_ends walked
  simp only [current]
  rfl

end TileExp.Analysis
