import Latias.Latencies.Blocks
import Latias.Ranges.CurrentRange

/-! No latency of a run is negative, as far as the parts of a visit are concerned. -/

namespace TileExp.Analysis

open Checked LoopNest

variable {ctx : PerfContext} {node ptr : NodePtr} {loops : List LoopState} {t t' : Tally}
  {skew : String → Int} {dim_name : String}

theorem rangeVolume_nonneg {ranges : Table DimRange}
    (ordered : ∀ name range, ranges.lookup name = some range → 0 ≤ range.length) :
    0 ≤ rangeVolume ranges := by
  have entries : ∀ entry ∈ ranges.entries, 0 ≤ entry.2.length := fun entry member =>
    ordered entry.1 entry.2 (AList.mem_lookup_iff.mpr member)
  unfold rangeVolume
  generalize ranges.entries = list at entries
  suffices ∀ start : Int, 0 ≤ start →
      0 ≤ list.foldl (fun map2_size pair => map2_size * pair.2.length) start from
    this 1 (by omega)
  induction list with
  | nil => exact fun start nonneg => nonneg
  | cons entry list ih =>
    intro start nonneg
    exact ih (fun e member => entries e (List.mem_cons_of_mem entry member)) _
      (Int.mul_nonneg nonneg (entries entry List.mem_cons_self))

theorem outputs_nonneg (init : InitAnalysis.OffsetsInit ctx.ev ctx.offsets)
    (positive : ctx.ev.PositiveBounds) (found : (ctx.ev.root_.get? node).isSome)
    (inside : ∀ loop ∈ loops, InProgress ctx.ev loop) {table : Table TensorMap} {outs : List Charge}
    (call : charges ctx node loops skew false table = .ok outs) : 0 ≤ totalAmount outs := by
  have each : ∀ charge ∈ outs, 0 ≤ charge.amount := by
    intro charge member
    obtain ⟨entry, _, made⟩ := exists_entry_of_charge call member
    have moved := made.amount
    unfold tensorMovement at moved
    split at moved
    · rw [← Except.ok.inj moved]
    · obtain ⟨_, _, volume⟩ := bind_eq_ok.mp moved
      rw [← Except.ok.inj volume]
      apply rangeVolume_nonneg
      intro name range at_name
      by_cases dim : name ∈ entry.2.tensor_dims_
      · obtain ⟨bounds, computed, at_bounds⟩ := made.ranges.inside name dim
        cases at_name.symm.trans at_bounds
        have ordered := currentDimRange_ordered init positive found
          (fun loop own => inside loop (mem_ownLoops.mp own).1) computed
        simp only [DimRange.length]
        omega
      · rw [made.ranges.outside name dim] at at_name
        cases at_name
  unfold totalAmount
  induction outs with
  | nil => exact Int.le_refl 0
  | cons charge outs ih =>
    clear ih call
    have all : ∀ amount ∈ (charge :: outs).map Charge.amount, 0 ≤ amount := by
      intro amount member
      obtain ⟨found, inside, rfl⟩ := List.mem_map.mp member
      exact each found inside
    exact List.sum_nonneg all

theorem transferLatency_nonneg (exact : ∀ n, ctx.ev.toInt n = n) {data_movement latency : Int}
    {bandwidth : Nat} (nonneg : 0 ≤ data_movement)
    (call : transferLatency ctx.ev data_movement bandwidth = .ok latency) : 0 ≤ latency := by
  obtain ⟨quotient, division, result⟩ := bind_eq_ok.mp call
  cases result
  obtain ⟨positive, rfl⟩ := divide_eq_ok division
  have width : (1 : Int) ≤ bandwidth := by exact_mod_cast Nat.pos_of_ne_zero positive
  rw [exact]
  exact Int.tdiv_nonneg (by omega) (by omega)

theorem transInputLatency_nonneg (exact : ∀ n, ctx.ev.toInt n = n) {dm_trans latency : Int}
    (call : transInputLatency ctx.ev node dm_trans = .ok latency) : 0 ≤ latency := by
  unfold transInputLatency at call
  split at call
  · next moved =>
    obtain ⟨source, _, call⟩ := bind_eq_ok.mp call
    obtain ⟨bandwidth, _, call⟩ := bind_eq_ok.mp call
    exact transferLatency_nonneg exact (Int.le_of_lt moved.1) call
  · cases call
    exact Int.le_refl 0

theorem tileInputLatency_nonneg (exact : ∀ n, ctx.ev.toInt n = n) {dm_tile latency : Int}
    (call : tileInputLatency ctx.ev node dm_tile = .ok latency) : 0 ≤ latency := by
  unfold tileInputLatency at call
  split at call
  · next moved =>
    obtain ⟨source, _, call⟩ := bind_eq_ok.mp call
    split at call
    · cases call
      exact Int.le_refl 0
    · obtain ⟨bandwidth, _, call⟩ := bind_eq_ok.mp call
      exact transferLatency_nonneg exact (Int.le_of_lt moved.1) call
  · cases call
    exact Int.le_refl 0

theorem getInputLatency_nonneg (exact : ∀ n, ctx.ev.toInt n = n) {dm_tile dm_trans latency : Int}
    (call : getInputLatency ctx.ev node dm_tile dm_trans = .ok latency) : 0 ≤ latency := by
  unfold getInputLatency at call
  split at call
  · cases call
    exact Int.le_refl 0
  · obtain ⟨trans, trans_call, call⟩ := bind_eq_ok.mp call
    obtain ⟨tile, tile_call, result⟩ := bind_eq_ok.mp call
    cases result
    have first := transInputLatency_nonneg exact trans_call
    have second := tileInputLatency_nonneg exact tile_call
    rw [exact]
    omega

theorem getOutputLatency_nonneg (exact : ∀ n, ctx.ev.toInt n = n) {data_movement latency : Int}
    (nonneg : 0 ≤ data_movement)
    (call : getOutputLatency ctx.ev node data_movement = .ok latency) : 0 ≤ latency := by
  unfold getOutputLatency at call
  split at call
  · cases call
    exact Int.le_refl 0
  · have sent : ∀ source_level : String, (do
        let target_level ← findTarget ctx.ev node
        let bandwidth ← ctx.ev.intercon_.bandwidth_ (source_level ++ "2" ++ target_level.1)
        transferLatency ctx.ev data_movement bandwidth) = .ok latency → 0 ≤ latency := by
      intro source_level call
      obtain ⟨target, _, call⟩ := bind_eq_ok.mp call
      obtain ⟨bandwidth, _, call⟩ := bind_eq_ok.mp call
      exact transferLatency_nonneg exact nonneg call
    split at call
    · split at call
      · rw [← Except.ok.inj call]
      · obtain ⟨source, _, call⟩ := bind_eq_ok.mp call
        rw [← Except.ok.inj call]
    · split at call
      · exact sent _ call
      · obtain ⟨source, _, call⟩ := bind_eq_ok.mp call
        exact sent source call

/-- Every latency kept by the tally is at least zero. -/
structure Sane (t : Tally) : Prop where
  input_latency_ : ∀ node, 0 ≤ t.input_latency_ node
  output_latency_ : ∀ node, 0 ≤ t.output_latency_ node
  process_latency_ : ∀ node, 0 ≤ t.process_latency_ node
  rows : ∀ node, NonnegRows (t.latency_vec_ node)
  row : ∀ node, NonnegRow (t.latency_sub_vec_ node)

namespace Sane

theorem latencyOf (sane : Sane t) (node : NodePtr) : NonnegEntry (t.latencyOf node) :=
  ⟨sane.input_latency_ node, sane.output_latency_ node, sane.process_latency_ node⟩

theorem record (sane : Sane t) (event : Event) : Sane (t.record event) :=
  ⟨sane.input_latency_, sane.output_latency_, sane.process_latency_, sane.rows, sane.row⟩

theorem clearSkew (sane : Sane t) (name : String) : Sane (t.clearSkew node name) :=
  ⟨sane.input_latency_, sane.output_latency_, sane.process_latency_, sane.rows, sane.row⟩

theorem advanceSkew (sane : Sane t) (name : String) (offset : Int) :
    Sane (t.advanceSkew node name offset) :=
  ⟨sane.input_latency_, sane.output_latency_, sane.process_latency_, sane.rows, sane.row⟩

theorem restoreSkew (sane : Sane t) (name : String) : Sane (t.restoreSkew node name) :=
  ⟨sane.input_latency_, sane.output_latency_, sane.process_latency_, sane.rows, sane.row⟩

theorem update_nonneg {f : NodePtr → Int} (nonneg : ∀ node, 0 ≤ f node) {value : Int}
    (positive : 0 ≤ value) (node : NodePtr) : ∀ ptr, 0 ≤ Function.update f node value ptr := by
  intro ptr
  by_cases here : ptr = node
  · subst here
    rwa [Function.update_self]
  · rw [Function.update_of_ne here]
    exact nonneg ptr

theorem setInputLatency (sane : Sane t) {value : Int} (positive : 0 ≤ value) :
    Sane (t.setInputLatency node value) :=
  ⟨update_nonneg sane.input_latency_ positive node, sane.output_latency_, sane.process_latency_,
    sane.rows, sane.row⟩

theorem setOutputLatency (sane : Sane t) {value : Int} (positive : 0 ≤ value) :
    Sane (t.setOutputLatency node value) :=
  ⟨sane.input_latency_, update_nonneg sane.output_latency_ positive node, sane.process_latency_,
    sane.rows, sane.row⟩

theorem setProcessLatency (sane : Sane t) {value : Int} (positive : 0 ≤ value) :
    Sane (t.setProcessLatency node value) :=
  ⟨sane.input_latency_, sane.output_latency_, update_nonneg sane.process_latency_ positive node,
    sane.rows, sane.row⟩

theorem setRow (sane : Sane t) {row : List Latency} (nonneg : NonnegRow row) :
    Sane (t.setRow node row) := by
  refine ⟨sane.input_latency_, sane.output_latency_, sane.process_latency_, sane.rows, fun ptr => ?_⟩
  by_cases here : ptr = node
  · subst here
    simpa [Tally.setRow] using nonneg
  · simpa [Tally.setRow, here] using sane.row ptr

theorem setRows (sane : Sane t) {rows : List (List Latency)} (nonneg : NonnegRows rows) :
    Sane (t.setRows node rows) := by
  refine ⟨sane.input_latency_, sane.output_latency_, sane.process_latency_, fun ptr => ?_, sane.row⟩
  by_cases here : ptr = node
  · subst here
    simpa [Tally.setRows] using nonneg
  · simpa [Tally.setRows, here] using sane.rows ptr

theorem pushLatency (sane : Sane t) (child : NodePtr) :
    Sane (t.setRow node (t.latency_sub_vec_ node ++ [t.latencyOf child])) := by
  refine sane.setRow fun entry member => ?_
  rcases List.mem_append.mp member with earlier | last
  · exact sane.row node entry earlier
  · cases List.mem_singleton.mp last
    exact sane.latencyOf child

theorem pushRow (sane : Sane t) (call : PerfAnalysis.pushRow node t = .ok t') : Sane t' := by
  obtain ⟨_, rfl⟩ := pushRow_eq_ok call
  refine Sane.record (sane.setRows fun row member => ?_) _
  rcases List.mem_append.mp member with earlier | last
  · exact sane.rows node row earlier
  · cases List.mem_singleton.mp last
    exact sane.row node

theorem opTally (sane : Sane t) : Sane (PerfAnalysis.opTally ctx (walkAt ctx node loops) t) := by
  have started : Sane { t with data_movements_ := t.data_movements_ +
      (PerfAnalysis.opMovement (ctx.ev.loopnests_ node) (t.output_tensors_ node) +
        PerfAnalysis.opMovement (ctx.ev.loopnests_ node) (t.input_tensors_ node)) } :=
    ⟨sane.input_latency_, sane.output_latency_, sane.process_latency_, sane.rows, sane.row⟩
  exact (((started.record _).setProcessLatency (Int.natCast_nonneg _)).setInputLatency
    (Int.le_refl 0)).setOutputLatency (Int.le_refl 0)

theorem transTally (sane : Sane t)
    (call : PerfAnalysis.transTally ctx (walkAt ctx node loops) t = .ok t') : Sane t' := by
  rw [transTally_eq_ok call]
  exact ((sane.setInputLatency (Int.le_refl 0)).setProcessLatency (Int.le_refl 0)).setOutputLatency
    (Int.le_refl 0)

theorem enterTile (sane : Sane t) (exact : ∀ n, ctx.ev.toInt n = n)
    (init : InitAnalysis.OffsetsInit ctx.ev ctx.offsets) (positive : ctx.ev.PositiveBounds)
    (found : (ctx.ev.root_.get? node).isSome) (inside : ∀ loop ∈ loops, InProgress ctx.ev loop)
    (call : PerfAnalysis.enterTile ctx (walkAt ctx node loops) t = .ok t') : Sane t' := by
  obtain ⟨ins, outs, tile, trans, entered⟩ := enterTile_eq_ok call
  have written := outputs_nonneg init positive found inside entered.outputs
  have both : 0 ≤ t'.input_latency_ node ∧ 0 ≤ t'.output_latency_ node := by
    have latencies := entered.latencies
    unfold TransferLatencies at latencies
    split at latencies
    · omega
    · exact ⟨getInputLatency_nonneg exact latencies.1,
        getOutputLatency_nonneg exact written latencies.2⟩
  have cleared : ∀ ptr, NonnegRows (Function.update t.latency_vec_ node [] ptr) := by
    intro ptr
    by_cases here : ptr = node
    · subst here
      rw [Function.update_self]
      exact fun row member => by cases member
    · rw [Function.update_of_ne here]
      exact sane.rows ptr
  rw [entered.result]
  exact ⟨update_nonneg sane.input_latency_ both.1 node,
    update_nonneg sane.output_latency_ both.2 node, sane.process_latency_, cleared, sane.row⟩

theorem finishTile (sane : Sane t) {latency : Int} (nonneg : 0 ≤ latency) :
    Sane (if latency ≠ 0 then
      (t.record (.compute node (t.latency_vec_ node))).setProcessLatency node latency
      else t.record (.compute node (t.latency_vec_ node))) := by
  split
  · exact (sane.record _).setProcessLatency nonneg
  · exact sane.record _

end Sane

end TileExp.Analysis
