import Latias.Visits.LoopNest

/-! What the steps of a visit do when they succeed. -/

namespace TileExp.Analysis

open Checked

variable {ctx : PerfContext} {node : NodePtr} {loops : List LoopState} {t t' : Tally}

def charges (ctx : PerfContext) (node : NodePtr) (loops : List LoopState) (skew : String → Int)
    (is_input : Bool) (table : Table TensorMap) : Exec (List Charge) :=
  table.entries.mapM (chargeTensor ctx (LoopNest.walkAt ctx node loops) skew is_input)

theorem totalAmount_split (name : String) (cs : List Charge) :
    totalAmount (cs.filter fun charge => charge.tensor_name ≠ name) +
      totalAmount (cs.filter fun charge => charge.tensor_name = name) = totalAmount cs := by
  induction cs with
  | nil => rfl
  | cons charge cs ih =>
    simp only [totalAmount] at ih ⊢
    by_cases same : charge.tensor_name = name
    · simp [same]
      simp at ih
      omega
    · simp [same]
      simp at ih
      omega

theorem addCurrentTensor_input {tile trans : Int}
    (call : addCurrentTensor ctx (LoopNest.walkAt ctx node loops) true t = .ok (t', tile, trans)) :
    ∃ name ins, transTensorName ctx t node = .ok name ∧
      charges ctx node loops t.dim_skew true (t.input_tensors_ node) = .ok ins ∧
      tile = totalAmount (ins.filter fun charge => charge.tensor_name ≠ name) ∧
      trans = totalAmount (ins.filter fun charge => charge.tensor_name = name) ∧
      t' = { t with
        input_tensors_ := Function.update t.input_tensors_ node
          (writeCharges (t.input_tensors_ node) ins)
        log := t.log ++ [.charge node true loops ins] } := by
  obtain ⟨name, named, call⟩ := bind_eq_ok.mp call
  obtain ⟨ins, charged, call⟩ := bind_eq_ok.mp call
  cases call
  exact ⟨name, ins, named, charged, rfl, rfl, rfl⟩

theorem addCurrentTensor_output {tile trans : Int}
    (call : addCurrentTensor ctx (LoopNest.walkAt ctx node loops) false t = .ok (t', tile, trans)) :
    ∃ outs, charges ctx node loops t.dim_skew false (t.output_tensors_ node) = .ok outs ∧
      tile = totalAmount outs ∧ trans = 0 ∧
      t' = { t with
        output_tensors_ := Function.update t.output_tensors_ node
          (writeCharges (t.output_tensors_ node) outs)
        log := t.log ++ [.charge node false loops outs] } := by
  obtain ⟨name, _, call⟩ := bind_eq_ok.mp call
  obtain ⟨outs, charged, call⟩ := bind_eq_ok.mp call
  cases call
  exact ⟨outs, charged, rfl, rfl, rfl⟩

def TransferLatencies (ev : Evaluator) (node : NodePtr) (tile trans output_dm : Int)
    (input_latency_ output_latency_ : Int) : Prop :=
  if get_parent node = none then input_latency_ = 0 ∧ output_latency_ = 0
  else getInputLatency ev node tile trans = .ok input_latency_ ∧
    getOutputLatency ev node output_dm = .ok output_latency_

/-- What the first iteration of a visit does. -/
structure TileEntered (ctx : PerfContext) (node : NodePtr) (loops : List LoopState) (t t' : Tally)
    (ins outs : List Charge) (tile trans : Int) : Prop where
  inputs : charges ctx node loops t.dim_skew true (t.input_tensors_ node) = .ok ins
  outputs : charges ctx node loops t.dim_skew false (t.output_tensors_ node) = .ok outs
  amount : tile + trans = totalAmount ins
  latencies : TransferLatencies ctx.ev node tile trans (totalAmount outs) (t'.input_latency_ node)
    (t'.output_latency_ node)
  result : t' = { t with
    input_tensors_ := Function.update t.input_tensors_ node
      (writeCharges (t.input_tensors_ node) ins)
    output_tensors_ := Function.update t.output_tensors_ node
      (writeCharges (t.output_tensors_ node) outs)
    input_latency_ := Function.update t.input_latency_ node (t'.input_latency_ node)
    output_latency_ := Function.update t.output_latency_ node (t'.output_latency_ node)
    latency_vec_ := Function.update t.latency_vec_ node []
    data_movements_ := t.data_movements_ + (totalAmount ins + totalAmount outs)
    log := t.log ++ [.charge node true loops ins, .charge node false loops outs] }

theorem enterTile_split
    (call : PerfAnalysis.enterTile ctx (LoopNest.walkAt ctx node loops) t = .ok t') :
    ∃ name ins outs, transTensorName ctx t node = .ok name ∧
      TileEntered ctx node loops t t' ins outs
        (totalAmount (ins.filter fun charge => charge.tensor_name ≠ name))
        (totalAmount (ins.filter fun charge => charge.tensor_name = name)) := by
  obtain ⟨⟨t₁, tile, trans⟩, first, call⟩ := bind_eq_ok.mp call
  obtain ⟨⟨t₂, output_tile, output_trans⟩, second, call⟩ := bind_eq_ok.mp call
  obtain ⟨name, ins, named, inputs, from_tiles, from_trans, rfl⟩ := addCurrentTensor_input first
  obtain ⟨outs, outputs, rfl, rfl, rfl⟩ := addCurrentTensor_output second
  have amount : tile + trans = totalAmount ins := by
    rw [from_tiles, from_trans, totalAmount_split]
  refine ⟨name, ins, outs, named, ?_⟩
  rw [← from_tiles, ← from_trans]
  have moved : t.data_movements_ + (tile + trans + totalAmount outs + 0) =
      t.data_movements_ + (totalAmount ins + totalAmount outs) := by
    omega
  by_cases root : get_parent node = none
  · simp only [LoopNest.walkAt, Walk.ofLoops, if_pos root, ok_bind, moved] at call
    cases call
    refine ⟨inputs, outputs, amount, ?_, ?_⟩
    · simp [TransferLatencies, root, Tally.setInputLatency, Tally.setOutputLatency, Tally.setRows]
    · simp [Tally.setInputLatency, Tally.setOutputLatency, Tally.setRows]
  · simp only [LoopNest.walkAt, Walk.ofLoops, if_neg root, moved] at call
    obtain ⟨input_latency, input_call, call⟩ := bind_eq_ok.mp call
    obtain ⟨output_latency, output_call, call⟩ := bind_eq_ok.mp call
    cases call
    refine ⟨inputs, outputs, amount, ?_, ?_⟩
    · simp [TransferLatencies, root, Tally.setInputLatency, Tally.setOutputLatency, Tally.setRows,
        input_call, output_call]
    · simp [Tally.setInputLatency, Tally.setOutputLatency, Tally.setRows]

theorem enterTile_eq_ok
    (call : PerfAnalysis.enterTile ctx (LoopNest.walkAt ctx node loops) t = .ok t') :
    ∃ ins outs tile trans, TileEntered ctx node loops t t' ins outs tile trans := by
  obtain ⟨name, ins, outs, _, entered⟩ := enterTile_split call
  exact ⟨ins, outs, _, _, entered⟩

theorem transTally_eq_ok
    (call : PerfAnalysis.transTally ctx (LoopNest.walkAt ctx node loops) t = .ok t') :
    t' = ((t.setInputLatency node 0).setProcessLatency node 0).setOutputLatency node 0 := by
  unfold PerfAnalysis.transTally at call
  simp only at call
  split at call
  · cases call
  · split at call
    · cases call
    · split at call
      · obtain ⟨bandwidth, _, call⟩ := bind_eq_ok.mp call
        obtain ⟨latency, quotient, call⟩ := bind_eq_ok.mp call
        obtain ⟨_, rfl⟩ := divide_eq_ok quotient
        cases call
        simp [Tally.setOutputLatency, LoopNest.walkAt, Walk.ofLoops]
      · cases call
        rfl

theorem pushRow_eq_ok (call : PerfAnalysis.pushRow node t = .ok t') :
    t.latency_sub_vec_ node ≠ [] ∧
      t' = (t.setRows node (t.latency_vec_ node ++ [t.latency_sub_vec_ node])).record
        (.row node (t.latency_sub_vec_ node)) := by
  unfold PerfAnalysis.pushRow at call
  simp only at call
  split at call
  · cases call
  · next present =>
    cases call
    exact ⟨present, rfl⟩

theorem finishTile_eq_ok (call : PerfAnalysis.finishTile ctx node t = .ok t') :
    ∃ latency, computeLatency ctx.ev node (t.latency_vec_ node) = .ok latency ∧
      t' = if latency ≠ 0 then
          (t.record (.compute node (t.latency_vec_ node))).setProcessLatency node latency
        else t.record (.compute node (t.latency_vec_ node)) := by
  obtain ⟨latency, computed, call⟩ := bind_eq_ok.mp call
  cases call
  exact ⟨latency, computed, rfl⟩

end TileExp.Analysis
