import Latias.Offsets.Total
import Latias.Ranges.Charges
import Latias.Visits.Progress

/-! A completed visit has completed a part at each node that it reaches. -/

namespace TileExp.Analysis

open Checked

namespace LoopNest

open Tally

variable {ctx : PerfContext} {node ptr : NodePtr} {loops : List LoopState} {t t' : Tally}
  {Inv : Tally → Prop} {tables : EvaTensors}

def HoldsBelow (tables : EvaTensors) (ptr : NodePtr) (t : Tally) : Prop :=
  ∀ node, ptr <:+ node → ∀ is_input, t.table is_input node = tables.table is_input node

theorem HoldsBelow.of_data (held : HoldsBelow tables ptr t)
    (same : ∀ node, ptr <:+ node → t'.dataAt node = t.dataAt node) : HoldsBelow tables ptr t' := by
  intro node under is_input
  rw [← held node under is_input]
  cases is_input with
  | true => exact congrArg NodeData.input_tensors_ (same node under)
  | false => exact congrArg NodeData.output_tensors_ (same node under)

structure IterationsOf (ctx : PerfContext) (ptr : NodePtr) (loops : List LoopState) : Prop where
  running : ∀ loop ∈ loops, InProgress ctx.ev loop
  outside : ∀ i, Outside (i :: ptr) loops

/-- The calls that a completed run has made at a node, for the first time if it is a Tile. -/
structure Ran (ctx : PerfContext) (Inv : Tally → Prop) (tables : EvaTensors) (node : NodePtr) :
    Prop where
  scope : ctx.ev.get_type node = .Scope → scopeRow node 0 (ctx.ev.ori_node_ node).children ≠ []
  transfer : ctx.ev.get_type node = .Trans →
    ∃ loops t t', PerfAnalysis.transTally ctx (walkAt ctx node loops) t = .ok t'
  loops : ctx.ev.get_type node = .Tile → ctx.ev.loopnests_ node ≠ [] ∧
    ∀ loop ∈ ctx.ev.loopnests_ node, loop.stride = 1
  enterTile : ctx.ev.get_type node = .Tile → ∃ loops t t', Inv t ∧ IterationsOf ctx node loops ∧
    (∀ is_input, t.table is_input node = tables.table is_input node) ∧
      PerfAnalysis.enterTile ctx (walkAt ctx node loops) t = .ok t'
  computeLatency : ctx.ev.get_type node = .Tile → ∃ rows latency, rows ≠ [] ∧
    (∀ row ∈ rows, row.map Latency.origin = rowOf ctx.ev node) ∧
      Analysis.computeLatency ctx.ev node rows = .ok latency

theorem tileLoops_first {body : List LoopState → Tally → Exec Tally} {Held : Tally → Prop}
    {dims : List Descriptor} (declared : ∀ loop ∈ dims, loop.name_ ∈ ctx.ev.dims node)
    (runs : EachRuns node dims loops) (first : isFirst node loops = true)
    (cleared : ∀ t dim_name, Held t → Held (t.clearSkew node dim_name))
    (start : IterationsOf ctx node loops) (held : Held t)
    (run : tileLoops ctx node body dims loops t = .ok t') :
    (∀ loop ∈ dims, loop.stride = 1) ∧ ∃ inner t₁ t₂ t₃, IterationsOf ctx node inner ∧ Held t₁ ∧
      PerfAnalysis.enterTile ctx (walkAt ctx node inner) t₁ = .ok t₂ ∧ body inner t₂ = .ok t₃ := by
  induction dims generalizing loops t t' with
  | nil =>
    rw [tileLoops] at run
    obtain ⟨mid, entered, inside⟩ := bind_eq_ok.mp run
    rw [enterFirst, if_pos first] at entered
    exact ⟨by simp, loops, t, mid, t', start, held, entered, inside⟩
  | cons loop rest ih =>
    rw [tileLoops] at run
    obtain ⟨_, stride, run⟩ := bind_eq_ok.mp run
    obtain ⟨mid, looped, _⟩ := bind_eq_ok.mp run
    obtain ⟨running, inner⟩ := runs
    obtain ⟨n, count⟩ : ∃ n, (loopEnd node loop loops - loop.start).toNat = n + 1 :=
      Nat.exists_eq_succ_of_ne_zero (by omega)
    rw [count, List.range_succ_eq_map, List.foldlM_cons] at looped
    obtain ⟨after, step, _⟩ := bind_eq_ok.mp looped
    obtain ⟨inside, nested, _⟩ := bind_eq_ok.mp step
    have iteration : IterationsOf ctx node
        (loopState node loop (loopEnd node loop loops) 0 :: loops) := by
      constructor
      · intro other member
        rcases List.mem_cons.mp member with rfl | outer
        · exact inProgress_loopState (declared loop List.mem_cons_self) (by omega)
        · exact start.running other outer
      · exact outside_loopState start.outside
    obtain ⟨strides, found⟩ := ih (fun l member => declared l (List.mem_cons_of_mem loop member))
      (inner 0 (by omega)) (by rw [isFirst_cons, first]; rfl) iteration
      (cleared t loop.name_ held) nested
    refine ⟨fun l member => ?_, found⟩
    rcases List.mem_cons.mp member with rfl | later
    · exact tileexpAssert_eq_ok.mp stride
    · exact strides l later

theorem exists_child_under {info : NodeInfo} {cs : List Node}
    (found : ctx.ev.root_.get? ptr = some (.mk info cs)) (under : ptr <:+ node) (apart : node ≠ ptr)
    (inside : (ctx.ev.root_.get? node).isSome) :
    ∃ j c, cs[j]? = some c ∧ (j :: ptr) <:+ node := by
  obtain ⟨j, child, below⟩ := exists_child_above under apart inside
  have present := Option.isSome_of_eq_some found
  obtain ⟨k, same, there⟩ := (mem_get_children present).mp child
  cases same
  rw [Rose.get?_cons, found, Option.bind_some] at there
  obtain ⟨c, place⟩ := Option.isSome_iff_exists.mp there
  exact ⟨j, c, place, below⟩

theorem reached_above (under : ptr <:+ node) (reached : ctx.ev.Reached node) : ctx.ev.Reached ptr := by
  obtain ⟨q, rfl⟩ := under
  induction q with
  | nil => exact reached
  | cons i q ih => exact ih reached.2

theorem HoldsBelow.child (held : HoldsBelow tables ptr t) (j : Nat) : HoldsBelow tables (j :: ptr) t :=
  fun node under => held node ((List.suffix_cons j ptr).trans under)

theorem leaf_alone {info : NodeInfo} {cs : List Node} (leaves : ctx.ev.LeafOps)
    (found : ctx.ev.root_.get? ptr = some (.mk info cs))
    (leaf : ctx.ev.get_type ptr = .Op ∨ ctx.ev.get_type ptr = .Trans) (under : ptr <:+ node)
    (inside : (ctx.ev.root_.get? node).isSome) : node = ptr := by
  by_contra apart
  obtain ⟨j, c, place, _⟩ := exists_child_under found under apart inside
  have none := leaves ptr (InitAnalysis.mem_positions.mpr (Option.isSome_of_eq_some found)) leaf
  rw [Evaluator.ori_node_of_get? found] at none
  cases List.length_eq_zero_iff.mp none
  cases place

theorem enterTile_others (call : PerfAnalysis.enterTile ctx (walkAt ctx ptr loops) t = .ok t')
    (apart : node ≠ ptr) : t'.dataAt node = t.dataAt node := by
  obtain ⟨ins, outs, tile, trans, entered⟩ := enterTile_eq_ok call
  rw [entered.result]
  simp [dataAt, apart]

theorem holdsBelow_sibling {i : Nat} {c : Node} (held : ∀ j ≥ i, HoldsBelow tables (j :: ptr) t)
    (child : visit ctx (i :: ptr) c loops t = .ok t') :
    ∀ j ≥ i + 1, HoldsBelow tables (j :: ptr) t' := by
  intro j bound
  apply (held j (by omega)).of_data
  intro node below
  apply visit_keeps (i :: ptr) c loops t t' child
  intro above
  have same := (List.suffix_of_suffix_length_le above below (by simp)).eq_of_length (by simp)
  cases same
  omega

/-- What a completed visit has done below a node. -/
theorem visit_ran (leaves : ctx.ev.LeafOps) (keeps : Parts ctx fun t t' => Inv t → Inv t')
    (runs : ∀ node loops, ctx.ev.get_type node = .Tile → EachRuns node (ctx.ev.loopnests_ node) loops)
    (ptr : NodePtr) (sub : Node) (found : ctx.ev.root_.get? ptr = some sub) :
    ∀ loops t t', (∀ loop ∈ loops, InProgress ctx.ev loop) → Outside ptr loops → Inv t →
      HoldsBelow tables ptr t → visit ctx ptr sub loops t = .ok t' →
        ∀ node, ptr <:+ node → (ctx.ev.root_.get? node).isSome → ctx.ev.Reached node →
          Ran ctx Inv tables node := by
  induction ptr, sub using Rose.position_induction₂
    (S := fun ptr i cs => ChildrenAt ctx.ev ptr i cs → ∀ loops t t', IterationsOf ctx ptr loops →
      Inv t → (∀ j ≥ i, HoldsBelow tables (j :: ptr) t) →
        scopeChildren ctx ptr i cs loops t = .ok t' → ∀ k c, cs[k]? = some c →
          ∀ node, ((i + k) :: ptr) <:+ node → (ctx.ev.root_.get? node).isSome →
            ctx.ev.Reached node → Ran ctx Inv tables node)
    (T := fun ptr i cs => ChildrenAt ctx.ev ptr i cs → ∀ loops t t', IterationsOf ctx ptr loops →
      Inv t → (∀ j ≥ i, HoldsBelow tables (j :: ptr) t) →
        tileChildren ctx ptr i cs loops t = .ok t' → ∀ k c, cs[k]? = some c →
          (∀ m < k, ∀ d, cs[m]? = some d → Node.get_type d ≠ .Scope) →
            ∀ node, ((i + k) :: ptr) <:+ node → (ctx.ev.root_.get? node).isSome →
              ctx.ev.Reached node → Ran ctx Inv tables node) with
  | node ptr info cs scope tile =>
    intro loops t t' running outside start held run node under inside reached
    have placed := childrenAt_zero found
    have kind_eq : ctx.ev.get_type ptr = info.kind.type_ := by
      rw [Evaluator.get_type, Evaluator.ori_node_of_get? found]
      rfl
    have cs_eq : (ctx.ev.ori_node_ ptr).children = cs := by
      rw [Evaluator.ori_node_of_get? found]
      rfl
    rw [visit] at run
    obtain ⟨mid, run, _⟩ := bind_eq_ok.mp run
    have entered := keeps.enter t ptr loops start
    have around : IterationsOf ctx ptr loops := ⟨running, fun _ => outside.child⟩
    obtain ⟨name_, level, mode, kind⟩ := info
    cases kind with
    | Op ops =>
      have op : ctx.ev.get_type ptr = .Op := kind_eq
      have here := leaf_alone leaves found (Or.inl op) under inside
      subst here
      constructor <;> exact fun other => by cases op.symm.trans other
    | Trans =>
      have trans : ctx.ev.get_type ptr = .Trans := kind_eq
      have here := leaf_alone leaves found (Or.inr trans) under inside
      subst here
      have other {kind : NodeType} (apart : kind ≠ .Trans) {p : Prop}
          (kind_eq : ctx.ev.get_type node = kind) : p :=
        absurd (kind_eq.symm.trans trans) apart
      exact ⟨other (by simp), fun _ => ⟨loops, _, mid, run⟩, other (by simp), other (by simp),
        other (by simp)⟩
    | Scope type =>
      have is_scope : ctx.ev.get_type ptr = .Scope := kind_eq
      obtain ⟨after, children, finish⟩ := bind_eq_ok.mp run
      by_cases here : node = ptr
      · subst here
        have origins := scopeChildren_origins placed children
        have other {kind : NodeType} (apart : kind ≠ .Scope) {p : Prop}
            (kind_eq : ctx.ev.get_type node = kind) : p :=
          absurd (kind_eq.symm.trans is_scope) apart
        refine ⟨fun _ none => ?_, other (by simp), other (by simp), other (by simp), other (by simp)⟩
        rw [cs_eq] at none
        rw [none] at origins
        have empty : after.latency_sub_vec_ node = [] := by simpa [Tally.setRow] using origins
        rw [finishScope, if_pos empty] at finish
        cases finish
      · obtain ⟨j, c, place, below⟩ := exists_child_under found under here inside
        have row := keeps.setRow _ ptr [] entered
        have clean : ∀ j ≥ 0, HoldsBelow tables (j :: ptr)
            ((t.record (.enter ptr ptr loops t.dim_skew)).setRow ptr []) := by
          intro j _
          apply (held.child j).of_data
          intro node below
          exact dataAt_setRow (by rintro rfl; exact absurd below.length_le (by simp)) _
        apply scope placed loops _ after around row clean children j c place node _ inside reached
        rwa [Nat.zero_add]
    | Tile type dims =>
      have is_tile : ctx.ev.get_type ptr = .Tile := kind_eq
      have dims_eq : ctx.ev.loopnests_ ptr = dims := by
        rw [Evaluator.loopnests_, Evaluator.ori_node_of_get? found]
        rfl
      cases dims with
      | nil => cases run
      | cons loop rest =>
        obtain ⟨after, nested, finish⟩ := bind_eq_ok.mp run
        have iterates : EachRuns ptr (loop :: rest) loops := dims_eq ▸ runs ptr loops is_tile
        have first : isFirst ptr loops = true := by
          apply isFirst_of_outside
          rintro loop member rfl
          exact outside loop member List.suffix_rfl
        have declared : ∀ l ∈ loop :: rest, l.name_ ∈ ctx.ev.dims ptr := by
          intro l member
          rw [Evaluator.dims, dims_eq]
          exact List.mem_map_of_mem member
        obtain ⟨strides, inner, t₁, t₂, t₃, iteration, ⟨before, same⟩, enters, body⟩ :=
          @tileLoops_first ctx ptr loops _ after _
            (fun t₁ => Inv t₁ ∧ HoldsBelow tables ptr t₁) _ declared iterates first
            (fun t₁ dim_name both => ⟨keeps.clearSkew t₁ ptr dim_name both.1, both.2⟩) around
            ⟨entered, held⟩ nested
        by_cases here : node = ptr
        · subst here
          have other {kind : NodeType} (apart : kind ≠ .Tile) {p : Prop}
              (kind_eq : ctx.ev.get_type node = kind) : p :=
            absurd (kind_eq.symm.trans is_tile) apart
          obtain ⟨filled, rows⟩ := tile_rows found iterates outside nested
          obtain ⟨latency, computed, _⟩ := finishTile_eq_ok finish
          refine ⟨other (by simp), other (by simp), fun _ => ?_, fun _ => ?_, fun _ => ?_⟩
          · rw [dims_eq]
            exact ⟨List.cons_ne_nil loop rest, strides⟩
          · exact ⟨inner, t₁, t₂, before, iteration, same node List.suffix_rfl, enters⟩
          · exact ⟨_, latency, filled, rows, computed⟩
        · obtain ⟨j, c, place, below⟩ := exists_child_under found under here inside
          obtain ⟨visited, children, _⟩ := bind_eq_ok.mp body
          have row := keeps.setRow t₂ ptr [] (keeps.enterTile t₁ t₂ ptr inner is_tile enters before)
          have clean : ∀ j ≥ 0, HoldsBelow tables (j :: ptr) (t₂.setRow ptr []) := by
            intro j _
            apply (same.child j).of_data
            intro node below
            have apart : node ≠ ptr := by
              rintro rfl
              exact absurd below.length_le (by simp)
            rw [dataAt_setRow apart]
            exact enterTile_others enters apart
          apply tile placed inner _ visited iteration row clean children j c place _ node _ inside reached
          · have first_child := (reached_above below reached).1 is_tile
            rw [cs_eq, reachedChild, List.all_eq_true] at first_child
            intro m bound d at_m
            exact of_decide_eq_true (first_child d
              (List.mem_take_iff_getElem.mpr ⟨m, by
                have length := (List.getElem?_eq_some_iff.mp at_m).1
                omega, (List.getElem?_eq_some_iff.mp at_m).2⟩))
          · rwa [Nat.zero_add]
  | first_nil ptr i =>
    rename_i place _ _ _ _
    cases place
  | first_cons ptr i c cs first rest =>
    rename_i placed loops t t' around start held run k d place node under inside reached
    rw [scopeChildren] at run
    obtain ⟨mid, child, others⟩ := bind_eq_ok.mp run
    cases k with
    | zero =>
      cases place
      exact first placed.head loops t mid around.running (around.outside i) start
        (held i (Nat.le_refl i)) child node under inside reached
    | succ k =>
      have kept := keeps.visit (i :: ptr) c placed.head loops t mid child start
      have later := holdsBelow_sibling held child
      have at_k : ((i + 1 + k) :: ptr) <:+ node := by
        rwa [show i + 1 + k = i + (k + 1) by omega]
      split at others
      · exact rest placed.tail loops _ t' around kept later others k d place node at_k inside reached
      · exact rest placed.tail loops _ t' around (keeps.setRow mid ptr _ kept)
          (fun j bound => (later j bound).of_data fun node below => dataAt_setRow
            (by rintro rfl; exact absurd below.length_le (by simp)) _)
          others k d place node at_k inside reached
  | second_nil ptr i =>
    rename_i place _ _ _ _ _
    cases place
  | second_cons ptr i c cs first rest =>
    rename_i placed loops t t' around start held run k d place before node under inside reached
    rw [tileChildren] at run
    obtain ⟨mid, child, others⟩ := bind_eq_ok.mp run
    cases k with
    | zero =>
      cases place
      exact first placed.head loops t mid around.running (around.outside i) start
        (held i (Nat.le_refl i)) child node under inside reached
    | succ k =>
      have kept := keeps.visit (i :: ptr) c placed.head loops t mid child start
      have later := holdsBelow_sibling held child
      have at_k : ((i + 1 + k) :: ptr) <:+ node := by
        rwa [show i + 1 + k = i + (k + 1) by omega]
      have other : ctx.ev.get_type (i :: ptr) ≠ .Scope := by
        rw [Evaluator.get_type, Evaluator.ori_node_of_get? placed.head]
        exact before 0 (Nat.succ_pos k) c rfl
      rw [if_neg other] at others
      exact rest placed.tail loops _ t' around (keeps.setRow mid ptr _ kept)
        (fun j bound => (later j bound).of_data fun node below => dataAt_setRow
          (by rintro rfl; exact absurd below.length_le (by simp)) _)
        others k d place (fun m bound e at_m => before (m + 1) (Nat.succ_lt_succ bound) e at_m)
        node at_k inside reached

end LoopNest

end TileExp.Analysis
