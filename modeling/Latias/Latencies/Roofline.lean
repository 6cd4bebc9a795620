import Latias.Latencies.Nonneg
import Latias.Counts.OpVisits
import Latias.Visits.Evaluation
import Latias.Analysis.Config

/-! The latency of a mapping with one Op covers the cycles of all its visits. -/

namespace TileExp.Analysis

open Checked LoopNest

/-- Tiles all the way down to one Op, each with Trans nodes after its only other child. -/
def singleOperator : Node → Bool
  | .mk info [] => info.kind.type_ = .Op
  | .mk info (c :: rest) =>
    info.kind.type_ = .Tile && singleOperator c && rest.all fun d => Node.get_type d = .Trans

structure RooflineSetting (ctx : PerfContext) : Prop where
  exact : ∀ n, ctx.ev.toInt n = n
  init : InitAnalysis.OffsetsInit ctx.ev ctx.offsets
  positive : ctx.ev.PositiveBounds
  broadcast : ∀ node ∈ Rose.postorder [] ctx.ev.root_, ctx.ev.Broadcast node

namespace Roofline

variable {ctx : PerfContext} {ptr op : NodePtr} {loops : List LoopState} {t t' : Tally}

def opRuns (op : NodePtr) (steps : List Mark) : Nat := steps.countP (Mark.isOp op)

theorem opRuns_append (a b : List Mark) : opRuns op (a ++ b) = opRuns op a + opRuns op b :=
  List.countP_append

def cycles (ev : Evaluator) (op : NodePtr) : Int :=
  ev.arch_topo_.compute_cycles (ev.target_level op)

theorem cycles_nonneg (ev : Evaluator) (op : NodePtr) : 0 ≤ cycles ev op := Int.natCast_nonneg _

def covered (ptr : NodePtr) (width : Nat) (t : Tally) : Int := rowsSum (t.latency_vec_ ptr) * width

theorem covered_nonneg (sane : Sane t) (width : Nat) : 0 ≤ covered ptr width t :=
  Int.mul_nonneg (rowsSum_nonneg (sane.rows ptr)) (Int.natCast_nonneg width)

theorem visit_trans {c : Node} (kind : Node.get_type c = .Trans) (sane : Sane t)
    (run : visit ctx ptr c loops t = .ok t') : Sane t' ∧ t'.process_latency_ ptr = 0 := by
  obtain ⟨⟨name_, level, mode, kind_⟩, cs⟩ := c
  obtain ⟨mid, inside, result⟩ := bind_eq_ok.mp run
  cases result
  cases kind_ with
  | Trans =>
    refine ⟨((sane.record _).transTally inside).record _, ?_⟩
    rw [transTally_eq_ok inside]
    simp [Tally.record, Tally.setOutputLatency, Tally.setProcessLatency, Tally.setInputLatency]
  | Tile => cases kind
  | Op => cases kind
  | Scope => cases kind

theorem transChildren_keep {cs : List Node} {i : Nat}
    (plain : ∀ d ∈ cs, Node.get_type d = .Trans) (placed : ChildrenAt ctx.ev ptr i cs)
    (sane : Sane t) (run : tileChildren ctx ptr i cs loops t = .ok t') :
    Sane t' ∧ t'.latency_vec_ ptr = t.latency_vec_ ptr ∧
      processSum (t'.latency_sub_vec_ ptr) = processSum (t.latency_sub_vec_ ptr) := by
  induction cs generalizing i t with
  | nil =>
    cases run
    exact ⟨sane, rfl, rfl⟩
  | cons c cs ih =>
    rw [tileChildren] at run
    obtain ⟨mid, child, others⟩ := bind_eq_ok.mp run
    have kind := plain c List.mem_cons_self
    obtain ⟨mid_sane, zero⟩ := visit_trans kind sane child
    have kept := visit_keeps (i :: ptr) c loops t mid child ptr
      (fun inside => absurd inside.length_le (by simp))
    have vec : mid.latency_vec_ ptr = t.latency_vec_ ptr := congrArg NodeData.latency_vec_ kept
    have sub : mid.latency_sub_vec_ ptr = t.latency_sub_vec_ ptr :=
      congrArg NodeData.latency_sub_vec_ kept
    rw [Evaluator.get_type, Evaluator.ori_node_of_get? placed.head, kind,
      if_neg NodeType.noConfusion] at others
    obtain ⟨after_sane, rows, row⟩ := ih (fun d member => plain d (List.mem_cons_of_mem c member))
      placed.tail (mid_sane.pushLatency (i :: ptr)) others
    refine ⟨after_sane, rows.trans vec, row.trans ?_⟩
    simp [Tally.setRow, processSum, Tally.latencyOf, zero, sub]

theorem opRuns_transSkeleton {cs : List Node} {i : Nat}
    (plain : ∀ d ∈ cs, Node.get_type d = .Trans) :
    opRuns op (tileSkeleton ptr i cs loops) = 0 := by
  induction cs generalizing i with
  | nil => rfl
  | cons c cs ih =>
    have kind := plain c List.mem_cons_self
    have rest := ih (fun d member => plain d (List.mem_cons_of_mem c member)) (i := i + 1)
    obtain ⟨⟨name_, level, mode, kind_⟩, ds⟩ := c
    cases kind_ with
    | Trans =>
      rw [tileSkeleton, opRuns_append, kind, if_neg NodeType.noConfusion, rest]
      simp [skeleton, opRuns, Mark.isOp]
    | Tile => cases kind
    | Op => cases kind
    | Scope => cases kind

/-- A visit of a node takes at least the cycles of the Op visits in it, on `width` cores. -/
def Covers (ctx : PerfContext) (op ptr : NodePtr) (sub : Node) (width : Nat) : Prop :=
  ∀ loops t t', (∀ loop ∈ loops, InProgress ctx.ev loop) → Sane t →
    visit ctx ptr sub loops t = .ok t' → Sane t' ∧
      cycles ctx.ev op * opRuns op (skeleton ptr sub loops) ≤ t'.process_latency_ ptr * width

theorem body_covers {c : Node} {rest : List Node} {width : Nat}
    (placed : ChildrenAt ctx.ev ptr 0 (c :: rest)) (inner : Node.get_type c ≠ .Scope)
    (plain : ∀ d ∈ rest, Node.get_type d = .Trans) (child : Covers ctx op (0 :: ptr) c width)
    (inside : ∀ loop ∈ loops, InProgress ctx.ev loop) (sane : Sane t)
    (run : (do
      let t ← tileChildren ctx ptr 0 (c :: rest) loops (t.setRow ptr [])
      PerfAnalysis.pushRow ptr t) = .ok t') :
    Sane t' ∧ covered ptr width t + cycles ctx.ev op *
      opRuns op (tileSkeleton ptr 0 (c :: rest) loops) ≤ covered ptr width t' := by
  obtain ⟨after, children, push⟩ := bind_eq_ok.mp run
  rw [tileChildren] at children
  obtain ⟨mid, first, others⟩ := bind_eq_ok.mp children
  have cleared : Sane (t.setRow ptr []) := sane.setRow fun entry member => by cases member
  obtain ⟨mid_sane, bound⟩ := child loops _ mid inside cleared first
  have kept := visit_keeps (0 :: ptr) c loops _ mid first ptr
    (fun under => absurd under.length_le (by simp))
  have vec : mid.latency_vec_ ptr = t.latency_vec_ ptr := congrArg NodeData.latency_vec_ kept
  have sub : mid.latency_sub_vec_ ptr = [] := by
    refine (congrArg NodeData.latency_sub_vec_ kept).trans ?_
    simp [Tally.dataAt, Tally.setRow]
  rw [Evaluator.get_type, Evaluator.ori_node_of_get? placed.head, if_neg inner] at others
  obtain ⟨after_sane, rows, row⟩ :=
    transChildren_keep plain placed.tail (mid_sane.pushLatency (0 :: ptr)) others
  have sum : processSum (after.latency_sub_vec_ ptr) = mid.process_latency_ (0 :: ptr) := by
    rw [row]
    simp [Tally.setRow, sub, processSum, Tally.latencyOf]
  have count : opRuns op (tileSkeleton ptr 0 (c :: rest) loops) =
      opRuns op (skeleton (0 :: ptr) c loops) := by
    rw [tileSkeleton, opRuns_append, if_neg inner, opRuns_transSkeleton plain, Nat.add_zero]
  refine ⟨after_sane.pushRow push, ?_⟩
  obtain ⟨_, rfl⟩ := pushRow_eq_ok push
  have grown : covered ptr width ((after.setRows ptr (after.latency_vec_ ptr ++
      [after.latency_sub_vec_ ptr])).record (.row ptr (after.latency_sub_vec_ ptr))) =
        covered ptr width t + mid.process_latency_ (0 :: ptr) * width := by
    have rows' : after.latency_vec_ ptr = t.latency_vec_ ptr := rows.trans vec
    simp only [covered, Tally.record, Tally.setRows, Function.update_self, rowsSum_append, rows']
    rw [rowsSum_cons, sum]
    simp [rowsSum, Int.add_mul]
  rw [grown, count]
  omega

theorem isFirst_loopState (loop : Descriptor) (loop_end : Int) (i : Nat) :
    isFirst ptr (loopState ptr loop loop_end i :: loops) =
      (decide (i = 0) && isFirst ptr loops) := by
  unfold isFirst
  simp [loopState]

theorem tileLoops_covers (ok : RooflineSetting ctx) (found : (ctx.ev.root_.get? ptr).isSome)
    {width : Nat} {body : List LoopState → Tally → Exec Tally} {inside : List LoopState → List Mark}
    (inner : ∀ loops t t', (∀ loop ∈ loops, InProgress ctx.ev loop) → Sane t →
      body loops t = .ok t' → Sane t' ∧
        covered ptr width t + cycles ctx.ev op * opRuns op (inside loops) ≤ covered ptr width t')
    (dims : List Descriptor) (declared : ∀ loop ∈ dims, loop.name_ ∈ ctx.ev.dims ptr)
    (loops : List LoopState) (t t' : Tally) (progress : ∀ loop ∈ loops, InProgress ctx.ev loop)
    (sane : Sane t) (run : tileLoops ctx ptr body dims loops t = .ok t') :
    Sane t' ∧ (if isFirst ptr loops then 0 else covered ptr width t) +
      cycles ctx.ev op * opRuns op ((iterations ptr dims loops).flatMap inside) ≤
        covered ptr width t' := by
  induction dims generalizing loops t t' with
  | nil =>
    rw [tileLoops] at run
    obtain ⟨mid, first, second⟩ := bind_eq_ok.mp run
    have entered : Sane mid ∧ covered ptr width mid =
        if isFirst ptr loops then 0 else covered ptr width t := by
      unfold enterFirst at first
      split at first
      · next fresh =>
        refine ⟨sane.enterTile ok.exact ok.init ok.positive found progress first, ?_⟩
        obtain ⟨ins, outs, tile, trans, entered⟩ := enterTile_eq_ok first
        rw [if_pos fresh, entered.result]
        simp [covered, rowsSum]
      · next later =>
        cases first
        exact ⟨sane, (if_neg later).symm⟩
    obtain ⟨after_sane, bound⟩ := inner loops mid t' progress entered.1 second
    refine ⟨after_sane, ?_⟩
    rw [entered.2] at bound
    simpa [iterations] using bound
  | cons loop rest ih =>
    rw [tileLoops] at run
    obtain ⟨_, _, run⟩ := bind_eq_ok.mp run
    obtain ⟨mid, looped, result⟩ := bind_eq_ok.mp run
    cases result
    have both := foldlM_induction looped (fun done s => Sane s ∧
      (if isFirst ptr loops then 0 else covered ptr width t) + cycles ctx.ev op * opRuns op
        ((done.flatMap fun i => iterations ptr rest
          (loopState ptr loop (loopEnd ptr loop loops) i :: loops)).flatMap inside) ≤
        covered ptr width s) ?_ ?_
    · exact ⟨both.1.restoreSkew loop.name_, both.2⟩
    · refine ⟨sane.clearSkew loop.name_, ?_⟩
      have nonneg : 0 ≤ covered ptr width t := covered_nonneg sane width
      change (if isFirst ptr loops then 0 else covered ptr width t) + cycles ctx.ev op * 0 ≤
        covered ptr width t
      split <;> omega
    · rintro done i later before after split ⟨before_sane, bound⟩ step
      obtain ⟨nested, inner_run, result⟩ := bind_eq_ok.mp step
      cases result
      have index := length_of_range_eq split
      have small : i < (loopEnd ptr loop loops - loop.start).toNat := by
        have member : i ∈ List.range (loopEnd ptr loop loops - loop.start).toNat := by
          rw [split]
          simp
        exact List.mem_range.mp member
      have more : ∀ l ∈ loopState ptr loop (loopEnd ptr loop loops) i :: loops,
          InProgress ctx.ev l := by
        intro l member
        rcases List.mem_cons.mp member with rfl | member
        · exact inProgress_loopState (declared loop List.mem_cons_self) small
        · exact progress l member
      obtain ⟨nested_sane, grown⟩ := ih (fun l member => declared l (List.mem_cons_of_mem loop member))
        _ before nested more before_sane inner_run
      refine ⟨nested_sane.advanceSkew loop.name_ _, ?_⟩
      rw [List.flatMap_append, List.flatMap_append, opRuns_append, List.flatMap_singleton,
        Nat.cast_add, Int.mul_add]
      change _ ≤ covered ptr width nested
      rw [isFirst_loopState] at grown
      by_cases fresh : i = 0 ∧ isFirst ptr loops
      · obtain ⟨rfl, first⟩ := fresh
        obtain rfl := List.length_eq_zero_iff.mp index
        rw [if_pos (by simp [first])] at grown
        rw [if_pos first]
        simpa [opRuns] using grown
      · rw [if_neg (by simpa using fresh)] at grown
        omega

theorem one_le_prod_tileFanout (ok : RooflineSetting ctx) (positions : List NodePtr)
    (inside : ∀ node ∈ positions, node ∈ Rose.postorder [] ctx.ev.root_) :
    1 ≤ (positions.map ctx.ev.tileFanout).prod := by
  induction positions with
  | nil => exact Nat.le_refl 1
  | cons node positions ih =>
    rw [List.map_cons, List.prod_cons]
    have head := tileFanout_pos (ok.broadcast node (inside node List.mem_cons_self))
    have tail := ih fun n member => inside n (List.mem_cons_of_mem node member)
    exact Nat.mul_pos head tail

theorem mem_postorder_of_under {node : NodePtr} {sub : Node}
    (found : ctx.ev.root_.get? ptr = some sub) (member : node ∈ Rose.postorder ptr sub) :
    node ∈ Rose.postorder [] ctx.ev.root_ := by
  obtain ⟨r, rfl, inside⟩ := (Rose.mem_postorder ptr sub node).mp member
  rw [Rose.mem_postorder]
  refine ⟨r ++ ptr, (List.append_nil _).symm, ?_⟩
  rw [Rose.get?_append, found]
  exact inside

theorem op_covers {info : NodeInfo} (found : ctx.ev.root_.get? ptr = some (.mk info []))
    (kind : info.kind.type_ = .Op) : Covers ctx op ptr (.mk info []) 1 := by
  intro loops t t' _ sane run
  obtain ⟨mid, inside, result⟩ := bind_eq_ok.mp run
  cases result
  obtain ⟨name_, level, mode, kind_⟩ := info
  cases kind_ with
  | Op ops =>
    cases inside
    refine ⟨((sane.record _).opTally).record _, ?_⟩
    have latency : (PerfAnalysis.opTally ctx (walkAt ctx ptr loops)
        (t.record (.enter ptr ptr loops t.dim_skew))).process_latency_ ptr = cycles ctx.ev ptr := by
      simp [PerfAnalysis.opTally, Tally.record, Tally.setOutputLatency, Tally.setInputLatency,
        Tally.setProcessLatency, walkAt, Walk.ofLoops, cycles]
    change _ ≤ (PerfAnalysis.opTally ctx (walkAt ctx ptr loops)
        (t.record (.enter ptr ptr loops t.dim_skew))).process_latency_ ptr * _
    rw [latency]
    have nonneg := cycles_nonneg ctx.ev ptr
    by_cases here : ptr = op
    · subst here
      simp [skeleton, opRuns, Mark.isOp]
    · simpa [skeleton, opRuns, Mark.isOp, here] using nonneg
  | Tile => cases kind
  | Scope => cases kind
  | Trans => cases kind

theorem tile_covers (ok : RooflineSetting ctx) {info : NodeInfo} {c : Node} {rest : List Node}
    {width : Nat} (found : ctx.ev.root_.get? ptr = some (.mk info (c :: rest)))
    (kind : info.kind.type_ = .Tile) (inner : Node.get_type c ≠ .Scope)
    (plain : ∀ d ∈ rest, Node.get_type d = .Trans) (child : Covers ctx op (0 :: ptr) c width) :
    Covers ctx op ptr (.mk info (c :: rest)) (width * ctx.ev.tileFanout ptr) := by
  intro loops t t' progress sane run
  have placed := childrenAt_zero found
  have present : (ctx.ev.root_.get? ptr).isSome := by rw [found]; rfl
  have value := Evaluator.ori_node_of_get? found
  obtain ⟨name_, level, mode, kind_⟩ := info
  obtain ⟨mid, inside, result⟩ := bind_eq_ok.mp run
  cases result
  cases kind_ with
  | Op => cases kind
  | Scope => cases kind
  | Trans => cases kind
  | Tile type_ dims =>
    cases dims with
    | nil => cases inside
    | cons loop more =>
      obtain ⟨after, nested, finish⟩ := bind_eq_ok.mp inside
      have declared : ∀ l ∈ loop :: more, l.name_ ∈ ctx.ev.dims ptr := by
        intro l member
        rw [Evaluator.dims, Evaluator.loopnests_, value]
        exact List.mem_map_of_mem member
      obtain ⟨after_sane, bound⟩ := tileLoops_covers ok present
        (fun loops t t' progress sane run => body_covers placed inner plain child progress sane run)
        (loop :: more) declared loops _ after progress (sane.record _) nested
      obtain ⟨latency, computed, rfl⟩ := finishTile_eq_ok finish
      have tile : ctx.ev.get_type ptr = .Tile := by
        rw [Evaluator.get_type, value]
        rfl
      have pipeline : ∀ first, ctx.ev.child ptr 0 = .ok first →
          scopeTypeOf (ctx.ev.ori_node_ first) = .Pipeline := by
        intro first at_first
        obtain ⟨rfl, _⟩ := Evaluator.get?_of_child at_first present
        rw [Evaluator.ori_node_of_get? placed.head, scopeTypeOf]
        cases scope : c.value.kind with
        | Scope type => simp [Node.get_type, scope, NodeKind.type_] at inner
        | Tile => rfl
        | Op => rfl
        | Trans => rfl
      obtain ⟨nonneg, covers⟩ := computeLatency_covers ok.exact tile
        (ok.broadcast ptr (InitAnalysis.mem_positions.mpr present)) pipeline
        (after_sane.rows ptr) computed
      refine ⟨(after_sane.finishTile nonneg).record _, ?_⟩
      have count : opRuns op (skeleton ptr (.mk ⟨name_, level, mode, .Tile type_ (loop :: more)⟩
          (c :: rest)) loops) = opRuns op ((iterations ptr (loop :: more) loops).flatMap
            (tileSkeleton ptr 0 (c :: rest))) := by
        have first : ∀ loops, (firstMarks ptr loops).countP (Mark.isOp op) = 0 := by
          intro loops
          unfold firstMarks
          split <;> simp [Mark.isOp]
        simp [skeleton, opRuns, Mark.isOp, List.countP_flatMap, Function.comp_def, first]
      rw [count]
      have started : 0 ≤ if isFirst ptr loops then 0
          else covered ptr width (t.record (.enter ptr ptr loops t.dim_skew)) := by
        split
        · exact Int.le_refl 0
        · exact covered_nonneg (sane.record _) width
      have total : cycles ctx.ev op * opRuns op ((iterations ptr (loop :: more) loops).flatMap
          (tileSkeleton ptr 0 (c :: rest))) ≤ rowsSum (after.latency_vec_ ptr) * width := by
        have sum : (if isFirst ptr loops then 0
            else covered ptr width (t.record (.enter ptr ptr loops t.dim_skew))) +
              cycles ctx.ev op * opRuns op ((iterations ptr (loop :: more) loops).flatMap
                (tileSkeleton ptr 0 (c :: rest))) ≤ covered ptr width after := bound
        unfold covered at sum started
        omega
      have spread : rowsSum (after.latency_vec_ ptr) * width ≤
          latency * (width * ctx.ev.tileFanout ptr : Nat) := by
        calc rowsSum (after.latency_vec_ ptr) * width
            ≤ latency * ctx.ev.tileFanout ptr * width :=
              Int.mul_le_mul_of_nonneg_right covers (Int.natCast_nonneg width)
          _ = latency * (width * ctx.ev.tileFanout ptr : Nat) := by
              push_cast
              ring
      refine (total.trans spread).trans ?_
      apply Int.mul_le_mul_of_nonneg_right _ (Int.natCast_nonneg _)
      have kept := after_sane.process_latency_ ptr
      split
      · simp [Tally.record, Tally.setProcessLatency]
      · next zero =>
        rw [not_not.mp zero]
        exact kept

theorem chain_covers (ok : RooflineSetting ctx) (op : NodePtr) (sub : Node) :
    singleOperator sub = true → ∀ ptr, ctx.ev.root_.get? ptr = some sub →
      Covers ctx op ptr sub ((Rose.postorder ptr sub).map ctx.ev.tileFanout).prod := by
  induction sub using Rose.children_induction with
  | step info cs ih =>
    intro single ptr found
    cases cs with
    | nil =>
      have kind : info.kind.type_ = .Op := by simpa [singleOperator] using single
      have width : ctx.ev.tileFanout ptr = 1 := by
        have other : ctx.ev.get_type ptr ≠ .Tile := by
          rw [Evaluator.get_type, Evaluator.ori_node_of_get? found, Node.get_type, Rose.value_mk, kind]
          exact NodeType.noConfusion
        exact if_neg fun both => other both.1
      have product : ((Rose.postorder ptr (.mk info [])).map ctx.ev.tileFanout).prod = 1 := by
        simp [Rose.postorder, Rose.postorders, width]
      rw [product]
      exact op_covers found kind
    | cons c rest =>
      simp only [singleOperator, Bool.and_eq_true, decide_eq_true_eq, List.all_eq_true] at single
      obtain ⟨⟨kind, inner⟩, plain⟩ := single
      have placed := childrenAt_zero found
      have child := ih c List.mem_cons_self inner (0 :: ptr) placed.head
      have scope : Node.get_type c ≠ .Scope := by
        obtain ⟨child_info, child_cs⟩ := c
        cases child_cs <;> simp [singleOperator] at inner <;> simp [Node.get_type, inner]
      have here := tile_covers ok found kind scope plain child
      have product : ((Rose.postorder ptr (.mk info (c :: rest))).map ctx.ev.tileFanout).prod =
          ((Rose.postorder (0 :: ptr) c).map ctx.ev.tileFanout).prod * ctx.ev.tileFanout ptr *
            ((Rose.postorders ptr 1 rest).map ctx.ev.tileFanout).prod := by
        rw [Rose.postorder, Rose.postorders, List.map_append, List.map_append, List.prod_append,
          List.prod_append, List.map_singleton, List.prod_singleton]
        ring
      have others : 1 ≤ ((Rose.postorders ptr 1 rest).map ctx.ev.tileFanout).prod := by
        refine one_le_prod_tileFanout ok _ fun node member => mem_postorder_of_under found ?_
        rw [Rose.postorder, Rose.postorders]
        simp [member]
      intro loops t t' progress sane run
      obtain ⟨after_sane, bound⟩ := here loops t t' progress sane run
      refine ⟨after_sane, bound.trans ?_⟩
      apply Int.mul_le_mul_of_nonneg_left _ (after_sane.process_latency_ ptr)
      rw [product]
      exact_mod_cast Nat.le_mul_of_pos_right _ others

end Roofline

variable {ev : Evaluator} {state : EvalState} {op : NodePtr}

/-- The latency of a mapping with one Op, times the cores of its Spatial Tiles, is at least the
    cycles of all visits of the Op. -/
theorem compute_roofline (run : ev.evaluate ev.construct = .ok state)
    (exact : ∀ n, ev.toInt n = n) (single : singleOperator ev.root_ = true)
    (broadcast : ∀ node ∈ Rose.postorder [] ev.root_, ev.Broadcast node)
    (positive : ev.PositiveBounds) :
    (ev.arch_topo_.compute_cycles (ev.target_level op) : Int) * opVisits op state.log ≤
      state.latency_ * ((Rose.postorder [] ev.root_).map ev.tileFanout).prod := by
  obtain ⟨tree, t, evaluated⟩ := Evaluator.evaluate_eq_ok run
  have init := InitAnalysis.run_offsets (fun node name some => by cases some) evaluated.initialised
  have ok : RooflineSetting (tree.context ev state.leaf_vec_) := ⟨exact, init, positive, broadcast⟩
  have start : Sane (PerfAnalysis.initial tree).tally := by
    have latencies := evaluated.latencies
    have sane : ∀ l : EvaLatencies, l = (EvaTree.fresh ev).toEvaLatencies →
        (∀ node, 0 ≤ l.input_latency_ node) ∧ (∀ node, 0 ≤ l.output_latency_ node) ∧
          (∀ node, 0 ≤ l.process_latency_ node) ∧ (∀ node, NonnegRows (l.latency_vec_ node)) ∧
            ∀ node, NonnegRow (l.latency_sub_vec_ node) := by
      rintro l rfl
      refine ⟨fun _ => Int.le_refl 0, fun _ => Int.le_refl 0, fun _ => Int.le_refl 0, ?_, ?_⟩
      · exact fun node row member => by cases member
      · exact fun node entry member => by cases member
    obtain ⟨input, output, process, rows, row⟩ := sane tree.toEvaLatencies latencies
    exact ⟨input, output, process, rows, row⟩
  have covers := (Roofline.chain_covers ok op ev.root_ single [] rfl [] _ t
    (fun loop member => by cases member) start evaluated.visited).2
  rw [evaluated.log, evaluated.latency_, opVisits_eq, evaluated.marks]
  exact covers

def spread : Evaluator :=
  Config.evaluator (Config.workloads [("copy", ⟨["A"], "B"⟩)] [("M", 6)] [("A", ["M"]), ("B", ["M"])]) 3
    [("Main2L1", ⟨1, .HD, 1, 1⟩), ("L12Main", ⟨1, .HD, 1, 1⟩), ("L12Cube", ⟨1, .BC, 1, 2⟩)]
    (Config.tile .Temporal "Main" [Config.loop "M" 2 2]
      [Config.tile .Spatial "L1" [Config.loop "M" 3 3]
        [Config.op "Cube" "copy" [Config.loop "M" 1 1]]])

theorem broadcast_spread :
    ∀ node ∈ Rose.postorder [] spread.root_, spread.Broadcast node := by
  intro node member tile spatial
  have positions : Rose.postorder [] spread.root_ = [[0, 0], [0], []] := by decide +kernel
  rw [positions] at member
  rcases List.mem_cons.mp member with rfl | member
  · cases tile
  · rcases List.mem_cons.mp member with rfl | member
    · exact ⟨⟨1, .BC, 1, 2⟩, by rfl, rfl, by decide⟩
    · cases List.mem_singleton.mp member
      cases spatial

theorem compute_roofline_spread :
    ∃ state, spread.evaluate spread.construct = .ok state ∧
      (spread.arch_topo_.compute_cycles (spread.target_level [0, 0]) : Int) *
        opVisits [0, 0] state.log ≤
          state.latency_ * ((Rose.postorder [] spread.root_).map spread.tileFanout).prod := by
  have completed : (spread.evaluate spread.construct).isOk = true := by
    decide +kernel
  obtain ⟨state, run⟩ := exists_of_isOk completed
  exact ⟨state, run, compute_roofline run (fun _ => rfl) (by decide +kernel) broadcast_spread
    (by decide +kernel)⟩

end TileExp.Analysis
