import Latias.Visits.Frame
import Latias.Analysis.TraversalOrder
import Mathlib.Logic.Relation

/-! A completed visit as a sequence of small steps on what it leaves behind. -/

namespace TileExp.Analysis

open Checked Relation

def Evaluator.DistinctDims (ev : Evaluator) : Prop :=
  ∀ node ∈ Rose.postorder [] ev.root_, ((ev.loopnests_ node).map Descriptor.name_).Nodup

instance (ev : Evaluator) : Decidable ev.DistinctDims :=
  inferInstanceAs (Decidable (∀ node ∈ Rose.postorder [] ev.root_, _))

def Evaluator.DistinctTileDims (ev : Evaluator) : Prop :=
  ∀ node ∈ Rose.postorder [] ev.root_, ev.get_type node = .Tile →
    ((ev.loopnests_ node).map Descriptor.name_).Nodup

instance (ev : Evaluator) : Decidable ev.DistinctTileDims :=
  inferInstanceAs (Decidable (∀ node ∈ Rose.postorder [] ev.root_, _))

theorem Evaluator.DistinctDims.tiles {ev : Evaluator} (distinct : ev.DistinctDims) :
    ev.DistinctTileDims :=
  fun node member _ => distinct node member

def Evaluator.opLatency (ev : Evaluator) (op : NodePtr) : Latency where
  input_latency_ := 0
  output_latency_ := 0
  process_latency_ := ev.arch_topo_.compute_cycles (ev.target_level op)
  origin := op

namespace LoopNest

def skewOf (ctx : PerfContext) (loops : List LoopState) (dim_name : String) : Int :=
  ((loops.filter fun loop => loop.name_ = dim_name).map fun loop =>
    (loop.index - loop.ori_start) * (ctx.dim_offset_ loop.node dim_name).1).sum

@[simp] theorem skewOf_nil (ctx : PerfContext) : skewOf ctx [] = fun _ => 0 := rfl

theorem skewOf_cons (ctx : PerfContext) (loop : LoopState) (loops : List LoopState) :
    skewOf ctx (loop :: loops) = Function.update (skewOf ctx loops) loop.name_
      (skewOf ctx loops loop.name_ +
        (loop.index - loop.ori_start) * (ctx.dim_offset_ loop.node loop.name_).1) := by
  funext dim_name
  unfold skewOf
  rcases eq_or_ne dim_name loop.name_ with rfl | apart
  · simp [Int.add_comm]
  · simp [apart, apart.symm]

inductive Step (ctx : PerfContext) : Tally → Tally → Prop
  | enter (ptr : NodePtr) (loops : List LoopState) (t : Tally)
    (skew : ctx.ev.DistinctTileDims → t.dim_skew = skewOf ctx loops) :
    Step ctx t (t.record (.enter ptr ptr loops t.dim_skew))
  | leave (ptr : NodePtr) (t : Tally) : Step ctx t (t.record (.leave ptr (up ptr)))
  | op (ptr : NodePtr) (loops : List LoopState) (t : Tally) (kind : ctx.ev.get_type ptr = .Op) :
    Step ctx t (PerfAnalysis.opTally ctx (walkAt ctx ptr loops) t)
  | trans {ptr : NodePtr} {loops : List LoopState} {t t' : Tally}
    (call : PerfAnalysis.transTally ctx (walkAt ctx ptr loops) t = .ok t') : Step ctx t t'
  | clearRow (ptr : NodePtr) (t : Tally) : Step ctx t (t.setRow ptr [])
  | pushLatency (ptr child : NodePtr) (t : Tally)
    (visited : ctx.ev.get_type child = .Op → t.latencyOf child = ctx.ev.opLatency child) :
    Step ctx t (t.setRow ptr (t.latency_sub_vec_ ptr ++ [t.latencyOf child]))
  | copyRow (ptr child : NodePtr) (t : Tally) : Step ctx t (t.setRow ptr (t.latency_sub_vec_ child))
  | finishScope {ptr : NodePtr} {t t' : Tally} (call : finishScope ptr t = .ok t') : Step ctx t t'
  | pushRow {ptr : NodePtr} {t t' : Tally} (call : PerfAnalysis.pushRow ptr t = .ok t') :
    Step ctx t t'
  | finishTile {ptr : NodePtr} {t t' : Tally} (call : PerfAnalysis.finishTile ctx ptr t = .ok t') :
    Step ctx t t'
  | charge {ptr : NodePtr} {loops : List LoopState} {t t' : Tally}
    (skew : ctx.ev.DistinctTileDims → t.dim_skew = skewOf ctx loops)
    (call : PerfAnalysis.enterTile ctx (walkAt ctx ptr loops) t = .ok t') : Step ctx t t'
  | clearSkew (ptr : NodePtr) (dim_name : String) (t : Tally) :
    Step ctx t (t.clearSkew ptr dim_name)
  | advanceSkew (ptr : NodePtr) (dim_name : String) (offset : Int) (t : Tally) :
    Step ctx t (t.advanceSkew ptr dim_name offset)
  | restoreSkew (ptr : NodePtr) (dim_name : String) (t : Tally) :
    Step ctx t (t.restoreSkew ptr dim_name)

abbrev Steps (ctx : PerfContext) := ReflTransGen (Step ctx)

/-- A property of the tallies that every step keeps holds after any number of them. -/
theorem steps_preserve {ctx : PerfContext} {Inv : Tally → Prop}
    (preserved : ∀ t t', Inv t → Step ctx t t' → Inv t') {t t' : Tally} (steps : Steps ctx t t')
    (start : Inv t) : Inv t' := by
  induction steps with
  | refl => exact start
  | tail _ step ih => exact preserved _ _ ih step

variable {ctx : PerfContext} {node ptr : NodePtr} {loops : List LoopState} {t t' : Tally}
  {names : List String}

structure SameSkew (node : NodePtr) (names : List String) (t t' : Tally) : Prop where
  dim_skew : t'.dim_skew = t.dim_skew
  current_dim_skew_ : ∀ name ∉ names, t'.current_dim_skew_ node name = t.current_dim_skew_ node name

theorem SameSkew.refl (node : NodePtr) (names : List String) (t : Tally) :
    SameSkew node names t t :=
  ⟨rfl, fun _ _ => rfl⟩

theorem SameSkew.trans {t₁ t₂ t₃ : Tally} (first : SameSkew node names t₁ t₂)
    (second : SameSkew node names t₂ t₃) : SameSkew node names t₁ t₃ :=
  ⟨second.dim_skew.trans first.dim_skew, fun name absent =>
    (second.current_dim_skew_ name absent).trans (first.current_dim_skew_ name absent)⟩

theorem enterTile_sameSkew (call : PerfAnalysis.enterTile ctx (walkAt ctx node loops) t = .ok t') :
    SameSkew node [] t t' := by
  obtain ⟨ins, outs, tile, trans, entered⟩ := enterTile_eq_ok call
  rw [entered.result]
  exact ⟨rfl, fun _ _ => rfl⟩

theorem finishTile_sameSkew (call : PerfAnalysis.finishTile ctx node t = .ok t') :
    t'.dim_skew = t.dim_skew := by
  obtain ⟨latency, _, rfl⟩ := finishTile_eq_ok call
  split <;> rfl

/-- What is known of one part of a visit, given that it starts at the skew of its iterations. -/
structure Taken (ctx : PerfContext) (node : NodePtr) (names : List String) (t t' : Tally) :
    Prop where
  steps : Steps ctx t t'
  skew : ctx.ev.DistinctTileDims → SameSkew node names t t'

theorem enterFirst_taken (skew : ctx.ev.DistinctTileDims → t.dim_skew = skewOf ctx loops)
    (call : enterFirst ctx node loops t = .ok t') : Taken ctx node [] t t' := by
  unfold enterFirst at call
  split at call
  · exact ⟨.single (.charge skew call), fun _ => enterTile_sameSkew call⟩
  · cases call
    exact ⟨.refl, fun _ => SameSkew.refl node [] t⟩

structure Advanced (ctx : PerfContext) (node : NodePtr) (loop : Descriptor) (t : Tally)
    (names : List String) (i : Nat) (t' : Tally) : Prop where
  dim_skew : t'.dim_skew = Function.update t.dim_skew loop.name_
    (t.dim_skew loop.name_ + i * (ctx.dim_offset_ node loop.name_).1)
  own : t'.current_dim_skew_ node loop.name_ = i * (ctx.dim_offset_ node loop.name_).1
  others : ∀ name ∉ names, name ≠ loop.name_ →
    t'.current_dim_skew_ node name = t.current_dim_skew_ node name

theorem advanced_zero (loop : Descriptor) :
    Advanced ctx node loop t names 0 (t.clearSkew node loop.name_) := by
  refine ⟨?_, by simp [Tally.clearSkew], fun name _ apart => by simp [Tally.clearSkew, apart]⟩
  simp [Tally.clearSkew]

theorem Advanced.inside {loop : Descriptor} {loop_end : Int} {i : Nat} {t₀ : Tally}
    (skew : t₀.dim_skew = skewOf ctx loops) (before : Advanced ctx node loop t₀ names i t) :
    t.dim_skew = skewOf ctx (loopState node loop loop_end i :: loops) := by
  have moved : loop.start + (i : Int) - loop.start = i := by omega
  rw [before.dim_skew, skewOf_cons, skew]
  simp only [loopState, moved]

theorem Advanced.next {loop : Descriptor} {i : Nat} {t₀ : Tally}
    (before : Advanced ctx node loop t₀ names i t) (absent : loop.name_ ∉ names)
    (inner : SameSkew node names t t') :
    Advanced ctx node loop t₀ names (i + 1)
      (t'.advanceSkew node loop.name_ (ctx.dim_offset_ node loop.name_).1) := by
  refine ⟨?_, ?_, ?_⟩
  · simp [Tally.advanceSkew, inner.dim_skew, before.dim_skew, Int.add_mul, Int.add_assoc]
  · simp [Tally.advanceSkew, inner.current_dim_skew_ _ absent, before.own, Int.add_mul]
  · intro name outside apart
    simp [Tally.advanceSkew, apart, inner.current_dim_skew_ name outside,
      before.others name outside apart]

theorem Advanced.restored {loop : Descriptor} {i : Nat} {t₀ : Tally}
    (after : Advanced ctx node loop t₀ names i t) :
    SameSkew node (loop.name_ :: names) t₀ (t.restoreSkew node loop.name_) := by
  constructor
  · simp [Tally.restoreSkew, after.dim_skew, after.own]
  · intro name outside
    exact after.others name (fun member => outside (List.mem_cons_of_mem _ member))
      (fun same => outside (same ▸ List.mem_cons_self))

theorem tileLoops_taken {body : List LoopState → Tally → Exec Tally}
    (inner : ∀ loops t t', (ctx.ev.DistinctTileDims → t.dim_skew = skewOf ctx loops) →
      body loops t = .ok t' → Taken ctx node [] t t') (dims : List Descriptor)
    (distinct : ctx.ev.DistinctTileDims → (dims.map Descriptor.name_).Nodup)
    (loops : List LoopState) (t t' : Tally)
    (skew : ctx.ev.DistinctTileDims → t.dim_skew = skewOf ctx loops)
    (run : tileLoops ctx node body dims loops t = .ok t') :
    Taken ctx node (dims.map Descriptor.name_) t t' := by
  induction dims generalizing loops t t' with
  | nil =>
    rw [tileLoops] at run
    obtain ⟨mid, first, second⟩ := bind_eq_ok.mp run
    have entered := enterFirst_taken skew first
    have before : ctx.ev.DistinctTileDims → mid.dim_skew = skewOf ctx loops := fun names =>
      (entered.skew names).dim_skew.trans (skew names)
    have rest := inner loops mid t' before second
    exact ⟨entered.steps.trans rest.steps, fun names => (entered.skew names).trans (rest.skew names)⟩
  | cons loop dims ih =>
    rw [tileLoops] at run
    obtain ⟨_, _, run⟩ := bind_eq_ok.mp run
    obtain ⟨mid, looped, result⟩ := bind_eq_ok.mp run
    cases result
    have rounds : ∀ names : ctx.ev.DistinctTileDims, loop.name_ ∉ dims.map Descriptor.name_ :=
      fun names => (List.nodup_cons.mp (distinct names)).1
    have both := foldlM_induction looped (fun done t' => Steps ctx t t' ∧
      (ctx.ev.DistinctTileDims →
        Advanced ctx node loop t (dims.map Descriptor.name_) done.length t'))
      ⟨.single (.clearSkew node loop.name_ t), fun _ => advanced_zero loop⟩ ?_
    · exact ⟨both.1.tail (.restoreSkew node loop.name_ mid),
        fun names => (both.2 names).restored⟩
    · rintro done i rest before after split ⟨steps, advanced⟩ step
      obtain ⟨after', nested, result⟩ := bind_eq_ok.mp step
      cases result
      have index := length_of_range_eq split
      have taken := ih (fun names => (List.nodup_cons.mp (distinct names)).2) _ before after'
        (fun names => (index ▸ advanced names).inside (skew names)) nested
      refine ⟨(steps.trans taken.steps).tail (.advanceSkew node loop.name_ _ after'), ?_⟩
      intro names
      rw [List.length_append, List.length_singleton]
      exact (advanced names).next (rounds names) (taken.skew names)

theorem visit_op {info : NodeInfo} {cs : List Node} {ops : List Descriptor} (kind : info.kind = .Op ops)
    (run : visit ctx ptr (.mk info cs) loops t = .ok t') :
    t'.latencyOf ptr = ctx.ev.opLatency ptr := by
  obtain ⟨mid, inside, result⟩ := bind_eq_ok.mp run
  cases result
  rw [kind] at inside
  cases inside
  simp [PerfAnalysis.opTally, Tally.record, Tally.latencyOf, Tally.setOutputLatency,
    Tally.setInputLatency, Tally.setProcessLatency, walkAt, Walk.ofLoops, Evaluator.opLatency]

theorem visit_op_latency {c : Node} (found : ctx.ev.root_.get? ptr = some c)
    (run : visit ctx ptr c loops t = .ok t') (kind : ctx.ev.get_type ptr = .Op) :
    t'.latencyOf ptr = ctx.ev.opLatency ptr := by
  obtain ⟨info, cs⟩ := c
  rw [Evaluator.get_type, Evaluator.ori_node_of_get? found] at kind
  cases inner : info.kind with
  | Op ops => exact visit_op inner run
  | Tile => simp [Node.get_type, inner, NodeKind.type_] at kind
  | Scope => simp [Node.get_type, inner, NodeKind.type_] at kind
  | Trans => simp [Node.get_type, inner, NodeKind.type_] at kind

/-- A completed visit takes small steps and ends at the skew it started from. -/
theorem visit_taken (ptr : NodePtr) (sub : Node) (found : ctx.ev.root_.get? ptr = some sub) :
    ∀ loops t t', (ctx.ev.DistinctTileDims → t.dim_skew = skewOf ctx loops) →
      visit ctx ptr sub loops t = .ok t' →
        Steps ctx t t' ∧ (ctx.ev.DistinctTileDims → t'.dim_skew = t.dim_skew) := by
  induction ptr, sub using Rose.position_induction₂
    (S := fun ptr i cs => ChildrenAt ctx.ev ptr i cs → ∀ loops t t',
      (ctx.ev.DistinctTileDims → t.dim_skew = skewOf ctx loops) →
      scopeChildren ctx ptr i cs loops t = .ok t' → Taken ctx ptr [] t t')
    (T := fun ptr i cs => ChildrenAt ctx.ev ptr i cs → ∀ loops t t',
      (ctx.ev.DistinctTileDims → t.dim_skew = skewOf ctx loops) →
      tileChildren ctx ptr i cs loops t = .ok t' → Taken ctx ptr [] t t') with
  | node ptr info cs scope tile =>
    intro loops t t' skew run
    have placed := childrenAt_zero found
    have kind_eq : ctx.ev.get_type ptr = info.kind.type_ := by
      rw [Evaluator.get_type, Evaluator.ori_node_of_get? found]
      rfl
    obtain ⟨mid, inside, result⟩ := bind_eq_ok.mp run
    cases result
    suffices Steps ctx (t.record (.enter ptr ptr loops t.dim_skew)) mid ∧
        (ctx.ev.DistinctTileDims → mid.dim_skew = t.dim_skew) from
      ⟨((ReflTransGen.single (.enter ptr loops t skew)).trans this.1).tail (.leave ptr mid), this.2⟩
    obtain ⟨name_, level, mode, kind⟩ := info
    cases kind with
    | Op ops =>
      cases inside
      exact ⟨.single (.op ptr loops _ kind_eq), fun _ => rfl⟩
    | Trans =>
      refine ⟨.single (.trans inside), fun _ => ?_⟩
      rw [transTally_eq_ok inside]
      rfl
    | Scope type =>
      obtain ⟨after, children, finish⟩ := bind_eq_ok.mp inside
      have taken := scope placed loops ((t.record (.enter ptr ptr loops t.dim_skew)).setRow ptr [])
        after skew children
      refine ⟨((ReflTransGen.single (.clearRow ptr _)).trans taken.steps).tail (.finishScope finish),
        fun names => ?_⟩
      unfold finishScope at finish
      split at finish
      · cases finish
      · cases finish
        exact (taken.skew names).dim_skew
    | Tile type dims =>
      cases dims with
      | nil => cases inside
      | cons loop rest =>
        have dims_eq : ctx.ev.loopnests_ ptr = loop :: rest := by
          rw [Evaluator.loopnests_, Evaluator.ori_node_of_get? found]
          rfl
        have member : ptr ∈ Rose.postorder [] ctx.ev.root_ :=
          (Rose.mem_postorder [] ctx.ev.root_ ptr).mpr
            ⟨ptr, (List.append_nil ptr).symm, by rw [found]; rfl⟩
        obtain ⟨after, nested, finish⟩ := bind_eq_ok.mp inside
        have taken := tileLoops_taken ?_ (loop :: rest)
          (fun names => dims_eq ▸ names ptr member kind_eq) loops
          (t.record (.enter ptr ptr loops t.dim_skew)) after skew nested
        · exact ⟨taken.steps.tail (.finishTile finish), fun names =>
            (finishTile_sameSkew finish).trans (taken.skew names).dim_skew⟩
        · intro loops t t' skew body
          obtain ⟨mid, children, push⟩ := bind_eq_ok.mp body
          have taken := tile placed loops (t.setRow ptr []) mid skew children
          refine ⟨((ReflTransGen.single (.clearRow ptr t)).trans taken.steps).tail (.pushRow push),
            fun names => ?_⟩
          obtain ⟨_, rfl⟩ := pushRow_eq_ok push
          exact ⟨(taken.skew names).dim_skew, (taken.skew names).current_dim_skew_⟩
  | first_nil ptr i =>
    rename_i placed loops t t' skew run
    cases run
    exact ⟨.refl, fun _ => SameSkew.refl ptr [] t⟩
  | first_cons ptr i c cs first rest =>
    rename_i placed loops t t' skew run
    rw [scopeChildren] at run
    obtain ⟨mid, child, others⟩ := bind_eq_ok.mp run
    obtain ⟨steps, same⟩ := first placed.head loops t mid skew child
    have kept : mid.current_dim_skew_ ptr = t.current_dim_skew_ ptr :=
      congrArg NodeData.current_dim_skew_ (visit_keeps (i :: ptr) c loops t mid child ptr
        (fun inside => absurd inside.length_le (by simp)))
    have before : ctx.ev.DistinctTileDims → mid.dim_skew = skewOf ctx loops := fun names =>
      (same names).trans (skew names)
    have visited := visit_op_latency placed.head child
    by_cases trans : ctx.ev.get_type (i :: ptr) = .Trans
    · rw [if_pos trans] at others
      have taken := rest placed.tail loops mid t' before others
      exact ⟨steps.trans taken.steps, fun names => SameSkew.trans
        ⟨same names, fun name _ => congrFun kept name⟩ (taken.skew names)⟩
    · rw [if_neg trans] at others
      have taken := rest placed.tail loops
        (mid.setRow ptr (mid.latency_sub_vec_ ptr ++ [mid.latencyOf (i :: ptr)])) t' before others
      exact ⟨(steps.tail (.pushLatency ptr (i :: ptr) mid visited)).trans taken.steps,
        fun names => SameSkew.trans ⟨same names, fun name _ => congrFun kept name⟩
          ⟨(taken.skew names).dim_skew, (taken.skew names).current_dim_skew_⟩⟩
  | second_nil ptr i =>
    rename_i placed loops t t' skew run
    cases run
    exact ⟨.refl, fun _ => SameSkew.refl ptr [] t⟩
  | second_cons ptr i c cs first rest =>
    rename_i placed loops t t' skew run
    rw [tileChildren] at run
    obtain ⟨mid, child, others⟩ := bind_eq_ok.mp run
    obtain ⟨steps, same⟩ := first placed.head loops t mid skew child
    have kept : mid.current_dim_skew_ ptr = t.current_dim_skew_ ptr :=
      congrArg NodeData.current_dim_skew_ (visit_keeps (i :: ptr) c loops t mid child ptr
        (fun inside => absurd inside.length_le (by simp)))
    have visited := visit_op_latency placed.head child
    by_cases scope : ctx.ev.get_type (i :: ptr) = .Scope
    · rw [if_pos scope] at others
      cases others
      exact ⟨steps.tail (.copyRow ptr (i :: ptr) mid), fun names =>
        ⟨same names, fun name _ => congrFun kept name⟩⟩
    · rw [if_neg scope] at others
      have taken := rest placed.tail loops
        (mid.setRow ptr (mid.latency_sub_vec_ ptr ++ [mid.latencyOf (i :: ptr)])) t'
        (fun names => (same names).trans (skew names)) others
      exact ⟨(steps.tail (.pushLatency ptr (i :: ptr) mid visited)).trans taken.steps,
        fun names => SameSkew.trans ⟨same names, fun name _ => congrFun kept name⟩
          ⟨(taken.skew names).dim_skew, (taken.skew names).current_dim_skew_⟩⟩

end LoopNest

end TileExp.Analysis
