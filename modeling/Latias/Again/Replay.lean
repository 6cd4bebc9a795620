import Latias.Visits.FirstIteration
import Latias.Visits.NoTrace
import Latias.Visits.Rule

/-! Visits from two states that agree on what is read before it is written. -/

namespace TileExp.Analysis

open Checked

def Evaluator.RunsTile (ev : Evaluator) (node : NodePtr) : Prop :=
  ev.get_type node = .Tile ∧ ev.loopnests_ node ≠ []

def Evaluator.Deep (ev : Evaluator) : Prop := ∃ node ≠ [], ev.RunsTile node

namespace LoopNest

variable {ctx : PerfContext} {node ptr : NodePtr} {loops : List LoopState} {t t' u u' : Tally}
  {names : List String}

structure Agree (ev : Evaluator) (t u : Tally) : Prop where
  tensors : u.toEvaTensors = t.toEvaTensors
  dim_skew : u.dim_skew = t.dim_skew
  data_movements_ : u.data_movements_ = t.data_movements_
  scopes : ∀ node, ev.get_type node = .Scope → u.latencyOf node = t.latencyOf node

/-- The states agree on what a Tile writes in the first iteration of its visit. -/
structure Entered (node : NodePtr) (t u : Tally) : Prop where
  rows : u.latency_vec_ node = t.latency_vec_ node
  transfers : node ≠ [] → u.input_latency_ node = t.input_latency_ node ∧
    u.output_latency_ node = t.output_latency_ node

structure Inside (ev : Evaluator) (node : NodePtr) (names : List String) (t u : Tally) : Prop where
  agree : Agree ev t u
  current : ∀ name ∈ names, u.current_dim_skew_ node name = t.current_dim_skew_ node name

/-- The second state holds the latencies of the Tiles that the first visit ends with. -/
def Left (ev : Evaluator) (below : NodePtr → Prop) (t' u : Tally) : Prop :=
  ∀ q, below q → ev.RunsTile q → u.process_latency_ q = t'.process_latency_ q

structure Replayed (ev : Evaluator) (ptr : NodePtr) (t' u' : Tally) : Prop where
  agree : Agree ev t' u'
  process : u'.process_latency_ ptr = t'.process_latency_ ptr
  latency : ptr ≠ [] → u'.latencyOf ptr = t'.latencyOf ptr
  row : ev.get_type ptr = .Scope → u'.latency_sub_vec_ ptr = t'.latency_sub_vec_ ptr

namespace Agree

variable {ev : Evaluator}

theorem record (agree : Agree ev t u) (event event' : Event) :
    Agree ev (t.record event) (u.record event') :=
  ⟨agree.tensors, agree.dim_skew, agree.data_movements_, agree.scopes⟩

theorem setRow (agree : Agree ev t u) (row row' : List Latency) :
    Agree ev (t.setRow node row) (u.setRow node row') :=
  ⟨agree.tensors, agree.dim_skew, agree.data_movements_, agree.scopes⟩

theorem setRows (agree : Agree ev t u) (rows rows' : List (List Latency)) :
    Agree ev (t.setRows node rows) (u.setRows node rows') :=
  ⟨agree.tensors, agree.dim_skew, agree.data_movements_, agree.scopes⟩

theorem of_other (agree : Agree ev t u) (node : NodePtr) (other : ev.get_type node ≠ .Scope)
    (tensors : u'.toEvaTensors = t'.toEvaTensors) (dim_skew : u'.dim_skew = t'.dim_skew)
    (data_movements_ : u'.data_movements_ = t'.data_movements_)
    (first : ∀ q ≠ node, t'.latencyOf q = t.latencyOf q)
    (second : ∀ q ≠ node, u'.latencyOf q = u.latencyOf q) : Agree ev t' u' := by
  refine ⟨tensors, dim_skew, data_movements_, fun q scope => ?_⟩
  have apart : q ≠ node := by
    rintro rfl
    exact other scope
  rw [first q apart, second q apart, agree.scopes q scope]

end Agree

/-! One visit of a leaf. -/

theorem opTally_agree (op : ctx.ev.get_type node = .Op) (agree : Agree ctx.ev t u) :
    Replayed ctx.ev node (PerfAnalysis.opTally ctx (walkAt ctx node loops) t)
      (PerfAnalysis.opTally ctx (walkAt ctx node loops) u) := by
  have ins : u.input_tensors_ = t.input_tensors_ := congrArg EvaTensors.input_tensors_ agree.tensors
  have outs : u.output_tensors_ = t.output_tensors_ :=
    congrArg EvaTensors.output_tensors_ agree.tensors
  refine ⟨agree.of_other node (by simp [op]) agree.tensors agree.dim_skew ?_ ?_ ?_,
    ?_, fun _ => ?_, ?_⟩
  · simp only [PerfAnalysis.opTally, Tally.setOutputLatency, Tally.setInputLatency,
      Tally.setProcessLatency, Tally.record, ins, outs, agree.data_movements_]
  · intro q apart
    simp [PerfAnalysis.opTally, Tally.latencyOf, Tally.setInputLatency, Tally.setOutputLatency,
      Tally.setProcessLatency, Tally.record, walkAt, Walk.ofLoops, apart]
  · intro q apart
    simp [PerfAnalysis.opTally, Tally.latencyOf, Tally.setInputLatency, Tally.setOutputLatency,
      Tally.setProcessLatency, Tally.record, walkAt, Walk.ofLoops, apart]
  · simp [PerfAnalysis.opTally, Tally.setInputLatency, Tally.setOutputLatency,
      Tally.setProcessLatency, Tally.record, walkAt, Walk.ofLoops]
  · simp [PerfAnalysis.opTally, Tally.latencyOf, Tally.setInputLatency, Tally.setOutputLatency,
      Tally.setProcessLatency, Tally.record, walkAt, Walk.ofLoops]
  · simp [op]

theorem transTally_agree (trans : ctx.ev.get_type node = .Trans) (agree : Agree ctx.ev t u)
    (call : PerfAnalysis.transTally ctx (walkAt ctx node loops) t = .ok t') :
    ∃ u', PerfAnalysis.transTally ctx (walkAt ctx node loops) u = .ok u' ∧
      Replayed ctx.ev node t' u' := by
  have passes : ∃ u', PerfAnalysis.transTally ctx (walkAt ctx node loops) u = .ok u' := by
    unfold PerfAnalysis.transTally at call ⊢
    simp only at call ⊢
    cases position : ctx.leaf_vec_.idxOf (walkAt ctx node loops).current_node_ with
    | zero => simp only [position] at call; cases call
    | succ current_idx =>
      simp only [position] at call ⊢
      cases former : ctx.leaf_vec_[current_idx]? with
      | none => simp only [former] at call; cases call
      | some former_node =>
        simp only [former] at call ⊢
        by_cases both : ctx.ev.get_type former_node = .Trans
        · rw [if_pos both] at call ⊢
          obtain ⟨bandwidth, link, call⟩ := bind_eq_ok.mp call
          obtain ⟨latency, quotient, _⟩ := bind_eq_ok.mp call
          rw [link, ok_bind, quotient]
          exact ⟨_, rfl⟩
        · rw [if_neg both]
          exact ⟨_, rfl⟩
  obtain ⟨u', again⟩ := passes
  refine ⟨u', again, ?_⟩
  rw [transTally_eq_ok call, transTally_eq_ok again]
  refine ⟨agree.of_other node (by simp [trans]) agree.tensors agree.dim_skew
    agree.data_movements_ (fun q apart => latencyOf_setLatencies apart t 0 0 0)
    (fun q apart => latencyOf_setLatencies apart u 0 0 0), ?_, fun _ => ?_, by simp [trans]⟩
  · simp [Tally.setInputLatency, Tally.setProcessLatency, Tally.setOutputLatency]
  · simp [Tally.latencyOf, Tally.setInputLatency, Tally.setProcessLatency, Tally.setOutputLatency]

/-! The first iteration of a Tile. -/

theorem addCurrentTensor_agree {w : Walk} {is_input : Bool} {tile trans : Int}
    (agree : Agree ctx.ev t u) (call : addCurrentTensor ctx w is_input t = .ok (t', tile, trans)) :
    ∃ u', addCurrentTensor ctx w is_input u = .ok (u', tile, trans) ∧ Agree ctx.ev t' u' := by
  have ins : u.input_tensors_ = t.input_tensors_ := congrArg EvaTensors.input_tensors_ agree.tensors
  have outs : u.output_tensors_ = t.output_tensors_ :=
    congrArg EvaTensors.output_tensors_ agree.tensors
  have name_eq : transTensorName ctx u w.current_node_ = transTensorName ctx t w.current_node_ := by
    simp only [transTensorName, outs]
  obtain ⟨name, named, call⟩ := bind_eq_ok.mp call
  have same : addCurrentTensor ctx w is_input u = (do
      let trans_tensor_name ← transTensorName ctx t w.current_node_
      if is_input then
        let charges ← (t.input_tensors_ w.current_node_).entries.mapM
          (chargeTensor ctx w t.dim_skew true)
        let trans := charges.filter fun charge => charge.tensor_name = trans_tensor_name
        let tile := charges.filter fun charge => charge.tensor_name ≠ trans_tensor_name
        let table := writeCharges (t.input_tensors_ w.current_node_) charges
        .ok ({ u with
          input_tensors_ := Function.update u.input_tensors_ w.current_node_ table }.record
            (.charge w.current_node_ true w.current_loop_state_ charges), totalAmount tile,
              totalAmount trans)
      else
        let charges ← (t.output_tensors_ w.current_node_).entries.mapM
          (chargeTensor ctx w t.dim_skew false)
        let table := writeCharges (t.output_tensors_ w.current_node_) charges
        .ok ({ u with
          output_tensors_ := Function.update u.output_tensors_ w.current_node_ table }.record
            (.charge w.current_node_ false w.current_loop_state_ charges), totalAmount charges,
              0)) := by
    rw [addCurrentTensor, name_eq]
    simp only [ins, outs, agree.dim_skew]
  rw [same, named, ok_bind]
  cases is_input with
  | true =>
    obtain ⟨cs, charged, result⟩ := bind_eq_ok.mp call
    cases result
    simp only [if_true, charged, ok_bind]
    refine ⟨_, rfl, ?_, agree.dim_skew, agree.data_movements_, agree.scopes⟩
    simp only [Tally.record, ins, outs]
  | false =>
    obtain ⟨cs, charged, result⟩ := bind_eq_ok.mp call
    cases result
    simp only [Bool.false_eq_true, if_false, charged, ok_bind]
    refine ⟨_, rfl, ?_, agree.dim_skew, agree.data_movements_, agree.scopes⟩
    simp only [Tally.record, ins, outs]

def withTransfers (node : NodePtr) (amount input output : Int) (t : Tally) : Tally :=
  (({ t with data_movements_ := t.data_movements_ + amount }.setInputLatency node
    input).setOutputLatency node output).setRows node []

theorem Agree.withTransfers (agree : Agree ctx.ev t u) (tile : ctx.ev.get_type node = .Tile)
    (amount input output : Int) :
    Agree ctx.ev (withTransfers node amount input output t) (withTransfers node amount input output u) ∧
      Entered node (LoopNest.withTransfers node amount input output t)
        (LoopNest.withTransfers node amount input output u) := by
  have kept (t : Tally) (q : NodePtr) (apart : q ≠ node) :
      (LoopNest.withTransfers node amount input output t).latencyOf q = t.latencyOf q := by
    simp [LoopNest.withTransfers, Tally.latencyOf, Tally.setRows, Tally.setInputLatency,
      Tally.setOutputLatency, apart]
  have total : (LoopNest.withTransfers node amount input output u).data_movements_ =
      (LoopNest.withTransfers node amount input output t).data_movements_ := by
    simp only [LoopNest.withTransfers, Tally.setRows, Tally.setInputLatency, Tally.setOutputLatency,
      agree.data_movements_]
  refine ⟨agree.of_other node (by simp [tile]) agree.tensors agree.dim_skew total (kept t)
    (kept u), ?_, fun _ => ?_⟩
  · simp [LoopNest.withTransfers, Tally.setRows]
  · simp [LoopNest.withTransfers, Tally.setRows, Tally.setInputLatency, Tally.setOutputLatency]

theorem enterTile_agree (tile : ctx.ev.get_type node = .Tile) (agree : Agree ctx.ev t u)
    (call : PerfAnalysis.enterTile ctx (walkAt ctx node loops) t = .ok t') :
    ∃ u', PerfAnalysis.enterTile ctx (walkAt ctx node loops) u = .ok u' ∧ Agree ctx.ev t' u' ∧
      Entered node t' u' := by
  obtain ⟨⟨t₁, input_tile, input_trans⟩, first, call⟩ := bind_eq_ok.mp call
  obtain ⟨⟨t₂, output_tile, output_trans⟩, second, call⟩ := bind_eq_ok.mp call
  obtain ⟨u₁, first', agree₁⟩ := addCurrentTensor_agree agree first
  obtain ⟨u₂, second', agree₂⟩ := addCurrentTensor_agree agree₁ second
  rw [PerfAnalysis.enterTile, first', ok_bind]
  simp only [second', ok_bind]
  by_cases root : get_parent (walkAt ctx node loops).current_node_ = none
  · simp only [if_pos root, ok_bind] at call ⊢
    cases call
    exact ⟨_, rfl, agree₂.withTransfers tile _ 0 0⟩
  · simp only [if_neg root] at call ⊢
    obtain ⟨input_latency, input_call, call⟩ := bind_eq_ok.mp call
    obtain ⟨output_latency, output_call, result⟩ := bind_eq_ok.mp call
    cases result
    rw [input_call, ok_bind, output_call, ok_bind]
    exact ⟨_, rfl, agree₂.withTransfers tile _ input_latency output_latency⟩

end LoopNest

end TileExp.Analysis
