import Latias.Analysis.Config
import Latias.Latencies.Nonneg
import Latias.Latencies.WiderLinks
import Latias.Visits.Evaluation

/-! Evaluations over links with more bandwidth move the same data in no more time. -/

namespace TileExp.Analysis

open Checked LoopNest

variable {ctx : PerfContext} {intercon_ : InterCon} {node ptr : NodePtr} {loops : List LoopState}
  {t t' u u' : Tally}

/-! The traffic does not depend on the links. -/

theorem currentDimRange_withLinks (w : Walk) (skew : String → Int) (dim_name : String) :
    currentDimRange (ctx.withLinks intercon_) w skew dim_name =
      currentDimRange ctx w skew dim_name := by
  have search : BFSOffsetLoop (ctx.withLinks intercon_).ev (ctx.withLinks intercon_).offsets
      w.current_node_ dim_name = BFSOffsetLoop ctx.ev ctx.offsets w.current_node_ dim_name :=
    BFSOffsetLoop_withLinks _ _ _
  unfold currentDimRange
  rw [search]

theorem charges_withLinks (skew : String → Int) (is_input : Bool) (table : Table TensorMap) :
    charges (ctx.withLinks intercon_) node loops skew is_input table =
      charges ctx node loops skew is_input table := by
  have walk : walkAt (ctx.withLinks intercon_) node loops = walkAt ctx node loops := rfl
  unfold charges
  rw [walk]
  congr 1
  funext tensor
  unfold chargeTensor currentTensorMap
  simp only [currentDimRange_withLinks]

theorem transTensorName_withLinks (t : Tally) (node : NodePtr) :
    transTensorName (ctx.withLinks intercon_) t node = transTensorName ctx t node := rfl

structure SameTraffic (t u : Tally) : Prop where
  tensors : u.toEvaTensors = t.toEvaTensors
  current_dim_skew_ : u.current_dim_skew_ = t.current_dim_skew_
  dim_skew : u.dim_skew = t.dim_skew
  data_movements_ : u.data_movements_ = t.data_movements_

namespace SameTraffic

theorem input_tensors_ (same : SameTraffic t u) : u.input_tensors_ = t.input_tensors_ :=
  congrArg EvaTensors.input_tensors_ same.tensors

theorem output_tensors_ (same : SameTraffic t u) : u.output_tensors_ = t.output_tensors_ :=
  congrArg EvaTensors.output_tensors_ same.tensors

theorem enterTile (same : SameTraffic t u)
    (call : PerfAnalysis.enterTile ctx (walkAt ctx node loops) t = .ok t')
    (call' : PerfAnalysis.enterTile (ctx.withLinks intercon_)
      (walkAt (ctx.withLinks intercon_) node loops) u = .ok u') :
    SameTraffic t' u' ∧ ∃ ins outs tile trans,
      TileEntered ctx node loops t t' ins outs tile trans ∧
      TileEntered (ctx.withLinks intercon_) node loops u u' ins outs tile trans := by
  obtain ⟨name, ins, outs, named, entered⟩ := enterTile_split call
  obtain ⟨name', ins', outs', named', entered'⟩ := enterTile_split call'
  have name_eq : transTensorName ctx u node = transTensorName ctx t node := by
    unfold transTensorName
    rw [same.output_tensors_]
  rw [transTensorName_withLinks, name_eq] at named'
  cases named.symm.trans named'
  have inputs := entered'.inputs
  rw [charges_withLinks, same.dim_skew, same.input_tensors_] at inputs
  cases entered.inputs.symm.trans inputs
  have outputs := entered'.outputs
  rw [charges_withLinks, same.dim_skew, same.output_tensors_] at outputs
  cases entered.outputs.symm.trans outputs
  refine ⟨?_, ins, outs, _, _, entered, entered'⟩
  rw [entered.result, entered'.result]
  refine ⟨?_, same.current_dim_skew_, same.dim_skew, ?_⟩
  · simp only [same.input_tensors_, same.output_tensors_]
  · simp only [same.data_movements_]

theorem pairs (ctx : PerfContext) (intercon_ : InterCon) : Pairs ctx intercon_ SameTraffic := by
  constructor
  case record =>
    exact fun same _ _ =>
      ⟨same.tensors, same.current_dim_skew_, same.dim_skew, same.data_movements_⟩
  case clearRow =>
    exact fun same _ => ⟨same.tensors, same.current_dim_skew_, same.dim_skew, same.data_movements_⟩
  case pushLatency =>
    exact fun same _ _ =>
      ⟨same.tensors, same.current_dim_skew_, same.dim_skew, same.data_movements_⟩
  case takeRow =>
    exact fun same _ _ =>
      ⟨same.tensors, same.current_dim_skew_, same.dim_skew, same.data_movements_⟩
  case pushRow =>
    exact fun same _ => ⟨same.tensors, same.current_dim_skew_, same.dim_skew, same.data_movements_⟩
  case clearSkew =>
    intro t u same node dim_name
    refine ⟨same.tensors, ?_, same.dim_skew, same.data_movements_⟩
    simp only [Tally.clearSkew, same.current_dim_skew_]
  case advanceSkew =>
    intro t u same node dim_name offset
    refine ⟨same.tensors, ?_, ?_, same.data_movements_⟩
    · simp only [Tally.advanceSkew, same.current_dim_skew_]
    · simp only [Tally.advanceSkew, same.dim_skew]
  case restoreSkew =>
    intro t u same node dim_name
    refine ⟨same.tensors, same.current_dim_skew_, ?_, same.data_movements_⟩
    simp only [Tally.restoreSkew, same.current_dim_skew_, same.dim_skew]
  case op =>
    intro t u same node loops
    refine ⟨same.tensors, same.current_dim_skew_, same.dim_skew, ?_⟩
    simp only [PerfAnalysis.opTally, Tally.setOutputLatency, Tally.setInputLatency,
      Tally.setProcessLatency, Tally.record, same.input_tensors_, same.output_tensors_,
      same.data_movements_]
    rfl
  case transfer =>
    intro t u t' u' same node loops call call'
    rw [transTally_eq_ok call, transTally_eq_ok call']
    exact ⟨same.tensors, same.current_dim_skew_, same.dim_skew, same.data_movements_⟩
  case enterTile => exact fun same node loops _ _ call call' => (same.enterTile call call').1
  case finishTile =>
    intro t u t' u' same node _ call call'
    obtain ⟨latency, _, rfl⟩ := finishTile_eq_ok call
    obtain ⟨latency', _, rfl⟩ := finishTile_eq_ok call'
    split
    all_goals
      split
      all_goals exact ⟨same.tensors, same.current_dim_skew_, same.dim_skew, same.data_movements_⟩

end SameTraffic

/-- A Tile is Temporal, or Spatial over a link that is no unicast. -/
def Evaluator.NoUnicast (ev : Evaluator) (node : NodePtr) : Prop :=
  ev.get_type node = .Tile → isTemporal (ev.ori_node_ node) = false →
    ∀ link, getInterConNode ev node 0 = .ok link → link.con_type_ ≠ .UC

/-- The second state has the same traffic and shorter latencies. -/
structure Hastened (t u : Tally) : Prop extends SameTraffic t u where
  input_latency_ : ∀ node, Shorter (u.input_latency_ node) (t.input_latency_ node)
  output_latency_ : ∀ node, Shorter (u.output_latency_ node) (t.output_latency_ node)
  process_latency_ : ∀ node, Shorter (u.process_latency_ node) (t.process_latency_ node)
  rows : ∀ node, ShorterRows (u.latency_vec_ node) (t.latency_vec_ node)
  row : ∀ node, List.Forall₂ ShorterEntry (u.latency_sub_vec_ node) (t.latency_sub_vec_ node)

structure BandwidthSetting (ctx : PerfContext) (intercon_ : InterCon) : Prop where
  exact : ∀ n, ctx.ev.toInt n = n
  init : InitAnalysis.OffsetsInit ctx.ev ctx.offsets
  positive : ctx.ev.PositiveBounds
  plain : ∀ node, ctx.ev.NoUnicast node
  widened : ctx.ev.intercon_.Widened intercon_

namespace Hastened

theorem latencyOf (hastened : Hastened t u) (node : NodePtr) :
    ShorterEntry (u.latencyOf node) (t.latencyOf node) :=
  ⟨hastened.input_latency_ node, hastened.output_latency_ node, hastened.process_latency_ node⟩

theorem update {β γ : Type} {P : β → γ → Prop} {f : NodePtr → β} {g : NodePtr → γ}
    (each : ∀ ptr, P (f ptr) (g ptr)) {a : β} {b : γ} (here : P a b) (node ptr : NodePtr) :
    P (Function.update f node a ptr) (Function.update g node b ptr) := by
  by_cases same : ptr = node
  · subst same
    rwa [Function.update_self, Function.update_self]
  · rw [Function.update_of_ne same, Function.update_of_ne same]
    exact each ptr

theorem pushed (hastened : Hastened t u) (node child : NodePtr) :
    List.Forall₂ ShorterEntry (u.latency_sub_vec_ node ++ [u.latencyOf child])
      (t.latency_sub_vec_ node ++ [t.latencyOf child]) :=
  List.rel_append (hastened.row node) (List.Forall₂.cons (hastened.latencyOf child) List.Forall₂.nil)

theorem transfers (setting : BandwidthSetting ctx intercon_) {tile trans output_dm : Int}
    (written : 0 ≤ output_dm) {input output input' output' : Int}
    (latencies : TransferLatencies ctx.ev node tile trans output_dm input output)
    (latencies' : TransferLatencies (ctx.withLinks intercon_).ev node tile trans output_dm input'
      output') : Shorter input' input ∧ Shorter output' output := by
  unfold TransferLatencies at latencies latencies'
  split at latencies
  · next root =>
    rw [if_pos root] at latencies'
    obtain ⟨rfl, rfl⟩ := latencies
    obtain ⟨rfl, rfl⟩ := latencies'
    exact ⟨Shorter.refl (Int.le_refl 0), Shorter.refl (Int.le_refl 0)⟩
  · next inner =>
    rw [if_neg inner] at latencies'
    exact ⟨getInputLatency_shorter setting.exact setting.widened latencies.1 latencies'.1,
      getOutputLatency_shorter setting.exact setting.widened written latencies.2 latencies'.2⟩

theorem enterTile (setting : BandwidthSetting ctx intercon_) (hastened : Hastened t u)
    (found : (ctx.ev.root_.get? node).isSome) (inside : ∀ loop ∈ loops, InProgress ctx.ev loop)
    (call : PerfAnalysis.enterTile ctx (walkAt ctx node loops) t = .ok t')
    (call' : PerfAnalysis.enterTile (ctx.withLinks intercon_)
      (walkAt (ctx.withLinks intercon_) node loops) u = .ok u') : Hastened t' u' := by
  obtain ⟨traffic, ins, outs, tile, trans, entered, entered'⟩ :=
    hastened.toSameTraffic.enterTile call call'
  have written := outputs_nonneg setting.init setting.positive found inside entered.outputs
  obtain ⟨input, output⟩ := transfers setting written entered.latencies entered'.latencies
  refine ⟨traffic, ?_, ?_, ?_, ?_, ?_⟩
  · rw [entered.result, entered'.result]
    exact update hastened.input_latency_ input node
  · rw [entered.result, entered'.result]
    exact update hastened.output_latency_ output node
  · rw [entered.result, entered'.result]
    exact hastened.process_latency_
  · rw [entered.result, entered'.result]
    exact update hastened.rows List.Forall₂.nil node
  · rw [entered.result, entered'.result]
    exact hastened.row

theorem finishTile (setting : BandwidthSetting ctx intercon_) (hastened : Hastened t u)
    (tile : ctx.ev.get_type node = .Tile) (call : PerfAnalysis.finishTile ctx node t = .ok t')
    (call' : PerfAnalysis.finishTile (ctx.withLinks intercon_) node u = .ok u') :
    Hastened t' u' := by
  have traffic := (SameTraffic.pairs ctx intercon_).finishTile hastened.toSameTraffic node tile call
    call'
  obtain ⟨latency, computed, rfl⟩ := finishTile_eq_ok call
  obtain ⟨latency', computed', rfl⟩ := finishTile_eq_ok call'
  have shorter := computeLatency_shorter setting.exact setting.widened (setting.plain node tile)
    (hastened.rows node) computed computed'
  by_cases none : latency = 0
  · have none' : latency' = 0 := Int.le_antisymm (none ▸ shorter.le) shorter.nonneg
    rw [if_neg (not_not.mpr none), if_neg (not_not.mpr none')] at traffic ⊢
    exact ⟨traffic, hastened.input_latency_, hastened.output_latency_, hastened.process_latency_,
      hastened.rows, hastened.row⟩
  · have some' : latency' ≠ 0 := fun none' => none (shorter.vanishes none')
    rw [if_pos none, if_pos some'] at traffic ⊢
    exact ⟨traffic, hastened.input_latency_, hastened.output_latency_,
      update hastened.process_latency_ shorter node, hastened.rows, hastened.row⟩

theorem pairs (setting : BandwidthSetting ctx intercon_) : Pairs ctx intercon_ Hastened := by
  have traffic := SameTraffic.pairs ctx intercon_
  have none : Shorter 0 0 := Shorter.refl (Int.le_refl 0)
  constructor
  case record =>
    intro t u h event event'
    exact ⟨traffic.record h.toSameTraffic event event', h.input_latency_, h.output_latency_,
      h.process_latency_, h.rows, h.row⟩
  case clearRow =>
    intro t u h node
    exact ⟨traffic.clearRow h.toSameTraffic node, h.input_latency_, h.output_latency_,
      h.process_latency_, h.rows, update h.row List.Forall₂.nil node⟩
  case pushLatency =>
    intro t u h node child
    exact ⟨traffic.pushLatency h.toSameTraffic node child, h.input_latency_, h.output_latency_,
      h.process_latency_, h.rows, update h.row (h.pushed node child) node⟩
  case takeRow =>
    intro t u h node child
    exact ⟨traffic.takeRow h.toSameTraffic node child, h.input_latency_, h.output_latency_,
      h.process_latency_, h.rows, update h.row (h.row child) node⟩
  case pushRow =>
    intro t u h node
    have longer : ShorterRows (u.latency_vec_ node ++ [u.latency_sub_vec_ node])
        (t.latency_vec_ node ++ [t.latency_sub_vec_ node]) :=
      List.rel_append (h.rows node) (List.Forall₂.cons (h.row node) List.Forall₂.nil)
    exact ⟨traffic.pushRow h.toSameTraffic node, h.input_latency_, h.output_latency_,
      h.process_latency_, update h.rows longer node, h.row⟩
  case clearSkew =>
    intro t u h node dim_name
    exact ⟨traffic.clearSkew h.toSameTraffic node dim_name, h.input_latency_, h.output_latency_,
      h.process_latency_, h.rows, h.row⟩
  case advanceSkew =>
    intro t u h node dim_name offset
    exact ⟨traffic.advanceSkew h.toSameTraffic node dim_name offset, h.input_latency_,
      h.output_latency_, h.process_latency_, h.rows, h.row⟩
  case restoreSkew =>
    intro t u h node dim_name
    exact ⟨traffic.restoreSkew h.toSameTraffic node dim_name, h.input_latency_, h.output_latency_,
      h.process_latency_, h.rows, h.row⟩
  case op =>
    intro t u h node loops
    exact ⟨traffic.op h.toSameTraffic node loops, update h.input_latency_ none node,
      update h.output_latency_ none node,
      update h.process_latency_ (Shorter.refl (Int.natCast_nonneg _)) node, h.rows, h.row⟩
  case transfer =>
    intro t u t' u' h node loops call call'
    have kept := traffic.transfer h.toSameTraffic node loops call call'
    rw [transTally_eq_ok call, transTally_eq_ok call'] at kept ⊢
    exact ⟨kept, update h.input_latency_ none node, update h.output_latency_ none node,
      update h.process_latency_ none node, h.rows, h.row⟩
  case enterTile =>
    exact fun h node loops found inside call call' => h.enterTile setting found inside call call'
  case finishTile => exact fun h node tile call call' => h.finishTile setting tile call call'

theorem start {ev : Evaluator} {tree : EvaTree}
    (latencies : tree.toEvaLatencies = (EvaTree.fresh ev).toEvaLatencies) :
    Hastened (PerfAnalysis.initial tree).tally (PerfAnalysis.initial tree).tally := by
  have none : Shorter 0 0 := Shorter.refl (Int.le_refl 0)
  have same : ∀ l : EvaLatencies, l = (EvaTree.fresh ev).toEvaLatencies →
      (∀ node, Shorter (l.input_latency_ node) (l.input_latency_ node)) ∧
        (∀ node, Shorter (l.output_latency_ node) (l.output_latency_ node)) ∧
          (∀ node, Shorter (l.process_latency_ node) (l.process_latency_ node)) ∧
            (∀ node, ShorterRows (l.latency_vec_ node) (l.latency_vec_ node)) ∧
              ∀ node, List.Forall₂ ShorterEntry (l.latency_sub_vec_ node) (l.latency_sub_vec_ node) := by
    rintro l rfl
    exact ⟨fun _ => none, fun _ => none, fun _ => none, fun _ => List.Forall₂.nil,
      fun _ => List.Forall₂.nil⟩
  obtain ⟨input, output, process, rows, row⟩ := same tree.toEvaLatencies latencies
  exact ⟨⟨rfl, rfl, rfl, rfl⟩, input, output, process, rows, row⟩

end Hastened

variable {ev : Evaluator} {state state' : EvalState}

theorem Evaluator.prepare_withLinks (ev : Evaluator) (intercon_ : InterCon) :
    (ev.withLinks intercon_).prepare = ev.prepare := by
  unfold Evaluator.prepare
  simp only [GetLoopCount.run_withLinks, InitAnalysis.run_withLinks]
  rfl

theorem noUnicast_of_positions (plain : ∀ node ∈ Rose.postorder [] ev.root_, ev.NoUnicast node)
    (node : NodePtr) : ev.NoUnicast node := by
  intro tile
  apply plain node ?_ tile
  apply InitAnalysis.mem_positions.mpr
  cases found : ev.root_.get? node with
  | some sub => rfl
  | none =>
    rw [Evaluator.get_type, Evaluator.ori_node_, found] at tile
    cases tile

/-- Links with more bandwidth move the same data, in no more time where all loops run. -/
theorem bandwidth_monotone (run : ev.evaluate ev.construct = .ok state)
    (run' : (ev.withLinks intercon_).evaluate (ev.withLinks intercon_).construct = .ok state')
    (exact : ∀ n, ev.toInt n = n) (widened : ev.intercon_.Widened intercon_)
    (plain : ∀ node ∈ Rose.postorder [] ev.root_, ev.NoUnicast node) :
    state'.data_movements_ = state.data_movements_ ∧
      (ev.PositiveBounds → state'.latency_ ≤ state.latency_) := by
  obtain ⟨tree, t, evaluated, ready⟩ := Evaluator.evaluate_prepares run
  obtain ⟨tree', t', evaluated', ready'⟩ := Evaluator.evaluate_prepares run'
  rw [Evaluator.prepare_withLinks, ready, Except.ok.injEq, Prod.mk.injEq] at ready'
  obtain ⟨rfl, leaves⟩ := ready'
  have visited' := evaluated'.visited
  rw [← leaves] at visited'
  rw [evaluated.data_movements_, evaluated'.data_movements_, evaluated.latency_, evaluated'.latency_]
  constructor
  · have same := (SameTraffic.pairs (tree.context ev state.leaf_vec_) intercon_).visit [] ev.root_ rfl
      [] _ _ t t' (fun loop member => by cases member) ⟨rfl, rfl, rfl, rfl⟩ evaluated.visited visited'
    exact same.data_movements_
  · intro positive
    have init := InitAnalysis.run_offsets (fun node name some => by cases some) evaluated.initialised
    have setting : BandwidthSetting (tree.context ev state.leaf_vec_) intercon_ :=
      ⟨exact, init, positive, noUnicast_of_positions plain, widened⟩
    have hastened := (Hastened.pairs setting).visit [] ev.root_ rfl [] _ _ t t'
      (fun loop member => by cases member) (Hastened.start evaluated.latencies) evaluated.visited
        visited'
    exact (hastened.process_latency_ []).le

theorem widened_intercon {links links' : List (String × InterConNode)}
    (pairs : List.Forall₂ (fun link link' => link.1 = link'.1 ∧ link.2.Widened link'.2) links links') :
    (Config.intercon links).Widened (Config.intercon links') := by
  intro connection
  simp only [Config.intercon]
  induction pairs with
  | nil => exact Option.Rel.none
  | @cons link link' _ _ here _ ih =>
    obtain ⟨same, wider⟩ := here
    rw [List.lookup_cons, List.lookup_cons, ← same]
    cases connection == link.1 with
    | true => exact Option.Rel.some wider
    | false => exact ih

def outerLinks (bandwidth : Nat) : List (String × InterConNode) :=
  [("Main2L1", ⟨1, .HD, 1, 1⟩), ("L12Main", ⟨bandwidth, .HD, 1, 1⟩), ("L12L2", ⟨1000, .HD, 1, 1⟩),
    ("L22L1", ⟨1000, .HD, 1, 1⟩), ("L22Cube", ⟨1000, .HD, 1, 1⟩)]

theorem outerLinks_widened : (Config.intercon (outerLinks 1)).Widened (Config.intercon (outerLinks 2)) := by
  apply widened_intercon
  repeat' constructor

def shortened (residual_end bound : Int) : Evaluator :=
  Config.evaluator (Config.workloads [("copy", ⟨["A"], "C"⟩)] [("M", bound), ("N", 20)]
      [("A", ["N"]), ("C", ["M"])]) 0 (outerLinks 1)
    (Config.tile .Temporal "Main" [Config.loop "M" 2 2]
      [Config.tile .Temporal "L1" [Config.loop "N" 1 1]
        [Config.tile .Temporal "L2" [Config.loop "M" 4 residual_end]
          [Config.op "Cube" "copy" [Config.loop "M" 3 1, Config.loop "N" 20 20]]]])

theorem shortened_plain (residual_end bound : Int) :
    ∀ node ∈ Rose.postorder [] (shortened residual_end bound).root_,
      (shortened residual_end bound).NoUnicast node := by
  intro node member tile spatial
  have positions : Rose.postorder [] (shortened residual_end bound).root_ =
      [[0, 0, 0], [0, 0], [0], []] := rfl
  simp only [positions, List.mem_cons, List.not_mem_nil, or_false] at member
  rcases member with rfl | rfl | rfl | rfl
  · cases tile
  · cases spatial
  · cases spatial
  · cases spatial

theorem bandwidth_monotone_shortened :
    ∃ state state', (shortened 1 13).evaluate (shortened 1 13).construct = .ok state ∧
      ((shortened 1 13).withLinks (Config.intercon (outerLinks 2))).evaluate
        ((shortened 1 13).withLinks (Config.intercon (outerLinks 2))).construct = .ok state' ∧
      state'.data_movements_ = state.data_movements_ ∧ state'.latency_ ≤ state.latency_ := by
  have completed : ((shortened 1 13).evaluate (shortened 1 13).construct).isOk = true := by
    decide +kernel
  have completed' : (((shortened 1 13).withLinks (Config.intercon (outerLinks 2))).evaluate
      ((shortened 1 13).withLinks (Config.intercon (outerLinks 2))).construct).isOk = true := by
    decide +kernel
  obtain ⟨state, run⟩ := exists_of_isOk completed
  obtain ⟨state', run'⟩ := exists_of_isOk completed'
  obtain ⟨traffic, faster⟩ := bandwidth_monotone run run' (fun _ => rfl) outerLinks_widened
    (shortened_plain 1 13)
  exact ⟨state, state', run, run', traffic, faster (by decide +kernel)⟩

/-- A loop with a residual end of zero gives an output a negative size, and more bandwidth makes
    its transfer less negative. -/
theorem bandwidth_slows : ¬ ∀ (ev : Evaluator) (intercon_ : InterCon) (state state' : EvalState),
    ev.evaluate ev.construct = .ok state →
    (ev.withLinks intercon_).evaluate (ev.withLinks intercon_).construct = .ok state' →
    (∀ n, ev.toInt n = n) → ev.intercon_.Widened intercon_ →
    (∀ node ∈ Rose.postorder [] ev.root_, ev.NoUnicast node) →
    state'.data_movements_ = state.data_movements_ ∧ state'.latency_ ≤ state.latency_ := by
  intro monotone
  have latency : ((shortened 0 10).evaluate (shortened 0 10).construct).map EvalState.latency_ =
      .ok 16 := by
    decide +kernel
  have latency' : (((shortened 0 10).withLinks (Config.intercon (outerLinks 2))).evaluate
      ((shortened 0 10).withLinks (Config.intercon (outerLinks 2))).construct).map
        EvalState.latency_ = .ok 20 := by
    decide +kernel
  cases run : (shortened 0 10).evaluate (shortened 0 10).construct with
  | error e =>
    rw [run] at latency
    cases latency
  | ok state =>
    cases run' : ((shortened 0 10).withLinks (Config.intercon (outerLinks 2))).evaluate
        ((shortened 0 10).withLinks (Config.intercon (outerLinks 2))).construct with
    | error e =>
      rw [run'] at latency'
      cases latency'
    | ok state' =>
      have order := (monotone _ _ state state' run run' (fun _ => rfl) outerLinks_widened
        (shortened_plain 0 10)).2
      rw [run] at latency
      rw [run'] at latency'
      have slow := Except.ok.inj latency
      have fast := Except.ok.inj latency'
      omega

end TileExp.Analysis
