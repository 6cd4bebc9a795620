import Latias.Latencies.Blocks
import Latias.Visits.Faults

/-! The faults of the three parts of a visit, from those of `findTarget` and `findSource` and from
    the links they divide by. -/

namespace TileExp.Analysis

open Checked

variable {ev : Evaluator} {ctx : PerfContext} {node : NodePtr} {p : Fault → Prop} {t : Tally}

/-- The bandwidth of the connection can be divided by, or else the faults of doing so are allowed. -/
def Evaluator.Divides (ev : Evaluator) (p : Fault → Prop) (connection : String) : Prop :=
  (∃ link, ev.intercon_.intercon_attri_map_ connection = some link ∧ link.bandwidth_ ≠ 0) ∨
    p .uninitialized ∧ p .divisionByZero

namespace Evaluator.Divides

variable {connection : String}

theorem bandwidth_ (divides : ev.Divides p connection) :
    Stops p (ev.intercon_.bandwidth_ connection) := by
  unfold InterCon.bandwidth_
  rcases divides with ⟨link, declared, _⟩ | allowed
  · rw [declared]
    exact stops_ok link.bandwidth_
  · split
    · exact stops_ok _
    · exact stops_error allowed.1

theorem quotient (divides : ev.Divides p connection) {bandwidth : Nat}
    (read : ev.intercon_.bandwidth_ connection = .ok bandwidth) (n : Int) :
    Stops p (divide n bandwidth) := by
  unfold divide
  rcases divides with ⟨link, declared, positive⟩ | allowed
  · unfold InterCon.bandwidth_ at read
    rw [declared] at read
    cases read
    rw [if_neg positive]
    exact stops_ok _
  · split
    · exact stops_error allowed.2
    · exact stops_ok _

theorem transfer (divides : ev.Divides p connection) (amount : Int) :
    Stops p (do
      let bandwidth ← ev.intercon_.bandwidth_ connection
      transferLatency ev amount bandwidth) := by
  apply divides.bandwidth_.bind
  intro bandwidth read
  apply (divides.quotient read _).bind
  intro quotient _
  exact stops_ok _

end Evaluator.Divides

theorem child_stops (allows : Allows p) (node : NodePtr) (i : Nat) : Stops p (ev.child node i) := by
  unfold Evaluator.child
  split
  · exact stops_ok _
  · exact stops_error allows.outOfRange

/-! The tensors of a Tile. -/

theorem transTensorName_stops (allows : Allows p) (t : Tally) (node : NodePtr) :
    Stops p (transTensorName ctx t node) := by
  simp only [transTensorName]
  split
  · exact stops_ok ""
  · split
    · exact stops_error allows.outOfRange
    · split
      · split
        · exact stops_error allows.outOfRange
        · exact stops_ok _
      · exact stops_ok ""

theorem chargeTensor_stops (allows : Allows p) (w : Walk) (skew : String → Int) (is_input : Bool)
    (tensor : Sigma fun _ : String => TensorMap) :
    Stops p (chargeTensor ctx w skew is_input tensor) := by
  have range (dim_name : String) : Stops p (currentDimRange ctx w skew dim_name) := by
    unfold currentDimRange
    simp only
    split
    · exact stops_ok _
    · exact stops_error allows.outOfRange
    · split
      · exact stops_ok _
      · exact stops_error (allows.assertion _)
  have map : Stops p (currentTensorMap ctx w skew tensor.1 tensor.2.tensor_dims_) := by
    apply (stops_foldlM (fun _ => True) ?_ (fun _ _ _ _ _ _ => trivial) ∅ trivial).bind
    · intro table _
      exact stops_ok _
    · intro dim_name _ table _
      apply (range dim_name).bind
      intro bounds _
      exact stops_ok _
  have volume (after : TensorMap) : Stops p (calTensorMapVolume after) := by
    apply (allows.assert _ _).bind
    intro _ _
    exact stops_ok _
  have movement (after : TensorMap) :
      Stops p (tensorMovement is_input w.current_node_ tensor.2 after) := by
    unfold tensorMovement
    split
    · exact stops_ok 0
    · split
      · apply (allows.assert _ _).bind
        intro _ _
        apply (allows.assert _ _).bind
        intro _ _
        split
        · exact stops_ok _
        · exact stops_ok _
      · exact volume after
  apply map.bind
  intro after _
  apply (movement after).bind
  intro amount _
  exact stops_ok _

theorem addCurrentTensor_stops (allows : Allows p) (w : Walk) (is_input : Bool) (t : Tally) :
    Stops p (addCurrentTensor ctx w is_input t) := by
  apply (transTensorName_stops allows t _).bind
  intro name _
  have charged (table : Table TensorMap) :
      Stops p (table.entries.mapM (chargeTensor ctx w t.dim_skew is_input)) :=
    stops_mapM fun tensor _ => chargeTensor_stops allows w t.dim_skew is_input tensor
  cases is_input with
  | true =>
    apply (charged _).bind
    intro charges _
    exact stops_ok _
  | false =>
    apply (charged _).bind
    intro charges _
    exact stops_ok _

/-! The searches, where a missing parent is allowed too. -/

theorem parentTileLevel_stops (null : p .nullPointer) (node : NodePtr) :
    Stops p (parentTileLevel ev node) := by
  have climb (node : NodePtr) : Stops p (climbToTile ev node) := by
    induction node with
    | nil =>
      rw [climbToTile]
      split
      · exact stops_ok []
      · exact stops_error null
    | cons i parent ih =>
      rw [climbToTile]
      split
      · exact stops_ok _
      · exact ih
  unfold parentTileLevel
  split
  · exact stops_error null
  · next parent _ =>
    apply (climb parent).bind
    intro tile _
    exact stops_ok _

theorem findTarget_stops (allows : Allows p) (null : p .nullPointer) (node : NodePtr) :
    Stops p (findTarget ev node) := by
  have climb (node : NodePtr) : Stops p (climbToTrans ev node) := by
    induction node with
    | nil => exact stops_error null
    | cons i parent ih =>
      rw [climbToTrans]
      split
      · exact ih
      · apply (child_stops allows parent (i + 1)).bind
        intro target_node _
        apply (allows.assert _ _).bind
        intro _ _
        exact stops_ok _
  unfold findTarget
  split
  · exact climb node
  · apply (parentTileLevel_stops null node).bind
    intro level _
    exact stops_ok _

theorem findSource_stops (allows : Allows p) (null : p .nullPointer) (node : NodePtr)
    (position : Nat) : Stops p (findSource ev node position) := by
  have tile : Stops p (tileSource ev node) := by
    apply (parentTileLevel_stops null node).bind
    intro level _
    exact stops_ok _
  unfold findSource
  split
  · split
    · exact stops_error null
    · split
      · exact tile
      · apply (child_stops allows _ _).bind
        intro former_node _
        split
        · split
          · exact stops_error allows.outOfRange
          · apply (child_stops allows _ _).bind
            intro producer _
            apply (allows.assert _ _).bind
            intro _ _
            exact stops_ok _
        · exact tile
  · exact tile

/-! The transfers of a Tile. -/

theorem getInputLatency_stops {source : Exec (String × Bool)} {dm_tile dm_trans : Int}
    (same : findSource ev node (findCurrentNodePosition node) = source) (stops : Stops p source)
    (from_trans : 0 < dm_trans → ∀ level, source = .ok level →
      ev.Divides p (level.1 ++ "2" ++ ev.target_level node))
    (from_tile : 0 < dm_tile → ∀ level, source = .ok level → ev.target_level node ≠ level.1 →
      ev.Divides p (level.1 ++ "2" ++ ev.target_level node)) :
    Stops p (getInputLatency ev node dm_tile dm_trans) := by
  have trans_part : Stops p (transInputLatency ev node dm_trans) := by
    unfold transInputLatency
    split
    · next moved =>
      rw [same]
      apply stops.bind
      intro level found
      exact (from_trans moved.1 level found).transfer dm_trans
    · exact stops_ok 0
  have tile_part : Stops p (tileInputLatency ev node dm_tile) := by
    unfold tileInputLatency
    split
    · next moved =>
      rw [same]
      apply stops.bind
      intro level found
      split
      · exact stops_ok 0
      · next apart => exact (from_tile moved.1 level found apart).transfer dm_tile
    · exact stops_ok 0
  unfold getInputLatency
  split
  · exact stops_ok 0
  · apply trans_part.bind
    intro trans_latency _
    apply tile_part.bind
    intro tile_latency _
    exact stops_ok _

theorem findLastOpTrans_stops (allows : Allows p) (node : Node) : Stops p (findLastOpTrans node) := by
  induction node using Rose.children_induction with
  | step info cs each =>
    have last (found : Exec String) (before : Stops p found) :
        Stops p (findLastOpTrans.findLast found cs) := by
      induction cs generalizing found with
      | nil => exact before
      | cons c cs ih =>
        exact ih (fun c' member => each c' (List.mem_cons_of_mem c member)) _
          (each c List.mem_cons_self)
    rw [findLastOpTrans]
    split
    · exact stops_ok _
    · exact last _ (stops_error allows.outOfRange)

def outputSource (ev : Evaluator) (node : NodePtr) : Exec String :=
  if (ev.ori_node_ node).dataflow_mode_ ≠ .Forward then .ok (ev.target_level node)
  else findLastOpTrans (ev.ori_node_ node)

theorem getOutputLatency_eq (node : NodePtr) (data_movement : Int) :
    getOutputLatency ev node data_movement =
      if ev.get_type node = .Scope ∨ ev.get_type node = .Trans then .ok 0
      else (do
        let source_level ← outputSource ev node
        if get_parent node = none then .ok 0
        else
          let target_level ← findTarget ev node
          let bandwidth ← ev.intercon_.bandwidth_ (source_level ++ "2" ++ target_level.1)
          transferLatency ev data_movement bandwidth) := by
  unfold getOutputLatency outputSource
  by_cases own : (ev.ori_node_ node).dataflow_mode_ ≠ .Forward
  · simp only [if_pos own, ok_bind]
  · simp only [if_neg own]

theorem outputSource_stops (allows : Allows p) (node : NodePtr) : Stops p (outputSource ev node) := by
  unfold outputSource
  split
  · exact stops_ok _
  · exact findLastOpTrans_stops allows _

theorem getOutputLatency_stops (allows : Allows p) {target : Exec (String × Bool)}
    (same : findTarget ev node = target) (stops : Stops p target)
    (divides : ∀ source level, outputSource ev node = .ok source → target = .ok level →
      ev.Divides p (source ++ "2" ++ level.1))
    (data_movement : Int) : Stops p (getOutputLatency ev node data_movement) := by
  rw [getOutputLatency_eq]
  split
  · exact stops_ok 0
  · apply (outputSource_stops allows node).bind
    intro source at_source
    split
    · exact stops_ok 0
    · rw [same]
      apply stops.bind
      intro level at_target
      exact (divides source level at_source at_target).transfer data_movement

/-! The three parts. -/

theorem transTally_stops (allows : Allows p) {w : Walk}
    (divides : ∀ former, ctx.ev.get_type former = .Trans →
      ctx.ev.Divides p (ctx.ev.target_level former ++ "2" ++ ctx.ev.target_level w.current_node_))
    (t : Tally) : Stops p (PerfAnalysis.transTally ctx w t) := by
  simp only [PerfAnalysis.transTally]
  split
  · exact stops_error allows.outOfRange
  · split
    · exact stops_error allows.outOfRange
    · next former _ =>
      split
      · next trans =>
        apply (divides former trans).bandwidth_.bind
        intro bandwidth read
        apply ((divides former trans).quotient read 0).bind
        intro output_latency _
        exact stops_ok _
      · exact stops_ok _

theorem enterTile_stops (allows : Allows p) {w : Walk}
    (inputs : ∀ ins, addCurrentTensor ctx w true t = .ok ins → w.current_node_ ≠ [] →
      Stops p (getInputLatency ctx.ev w.current_node_ ins.2.1 ins.2.2))
    (outputs : ∀ data_movement, w.current_node_ ≠ [] →
      Stops p (getOutputLatency ctx.ev w.current_node_ data_movement)) :
    Stops p (PerfAnalysis.enterTile ctx w t) := by
  apply (addCurrentTensor_stops allows w true t).bind
  intro ins charged
  apply (addCurrentTensor_stops allows w false ins.1).bind
  intro outs _
  have inner {node : NodePtr} (below : get_parent node ≠ none) : node ≠ [] := by
    rintro rfl
    exact below rfl
  simp only
  split
  · exact stops_ok _
  · next below =>
    apply (inputs ins charged (inner below)).bind
    intro input_latency _
    apply (outputs _ (inner below)).bind
    intro output_latency _
    exact stops_ok _

theorem getInterConNode_stops (allows : Allows p) (node : NodePtr) (idx : Nat) :
    Stops p (getInterConNode ev node idx) := by
  apply (child_stops allows node 0).bind
  intro first _
  apply (child_stops allows _ idx).bind
  intro child _
  simp only
  split
  · split
    · exact stops_error allows.outOfRange
    · apply (child_stops allows _ _).bind
      intro prev_child _
      rw [ok_bind]
      split
      · exact stops_ok _
      · exact stops_error (allows.assertion _)
  · simp only [ok_bind]
    split
    · exact stops_ok _
    · exact stops_error (allows.assertion _)

theorem computeScopeLatency_stops (allows : Allows p) (node : NodePtr) (row : List Latency)
    (scope_type : ScopeType) : Stops p (computeScopeLatency ev node row scope_type) := by
  have loop (child_num : Nat) (dm_latency : Int) (result : BlockLatency) :
      Stops p (scopeLatencyLoop ev node scope_type child_num dm_latency result row) := by
    induction row generalizing child_num dm_latency result with
    | nil => exact stops_ok result
    | cons latency row ih =>
      rw [scopeLatencyLoop]
      apply (getInterConNode_stops allows node child_num).bind
      intro link _
      exact ih _ _ _
  apply (child_stops allows node 0).bind
  intro _ _
  exact loop 0 0 _

theorem temporalLatency_stops (allows : Allows p) (node : NodePtr) (scope_type : ScopeType)
    (rows : List (List Latency)) (total : BlockLatency) :
    Stops p (temporalLatency ev node scope_type total rows) := by
  induction rows generalizing total with
  | nil => exact stops_ok total
  | cons row rows ih =>
    rw [temporalLatency]
    apply (computeScopeLatency_stops allows node row scope_type).bind
    intro block _
    exact ih _

theorem spatialLatency_stops (allows : Allows p) (node : NodePtr) (scope_type : ScopeType)
    (kind : ConType) (fanout_ repeat_ : Nat) (rows : List (List Latency)) (i : Nat)
    (total : BlockLatency) (result : Int) (rounds : Nat) :
    Stops p (spatialLatency ev node scope_type kind fanout_ repeat_ rows i total result rounds) := by
  have group (rows : List (List Latency)) (totals : BlockLatency × Int) :
      Stops p (groupLatency ev node scope_type kind totals rows) := by
    induction rows generalizing totals with
    | nil => exact stops_ok totals
    | cons row rows ih =>
      rw [groupLatency]
      apply (computeScopeLatency_stops allows node row scope_type).bind
      intro block _
      exact ih _
  induction rounds generalizing i total result with
  | zero => exact stops_ok result
  | succ rounds ih =>
    rw [spatialLatency]
    apply (group _ _).bind
    intro totals _
    exact ih _ _ _

theorem computeLatency_stops (allows : Allows p)
    (divides : ∀ link, getInterConNode ev node 0 = .ok link →
      isTemporal (ev.ori_node_ node) = false → link.fanout_ = 0 → p .divisionByZero)
    (rows : List (List Latency)) : Stops p (computeLatency ev node rows) := by
  apply (allows.assert _ _).bind
  intro _ _
  apply (child_stops allows node 0).bind
  intro child _
  apply (getInterConNode_stops allows node 0).bind
  intro link found
  split
  · apply (temporalLatency_stops allows node _ rows _).bind
    intro total _
    exact stops_ok _
  · next spatial =>
    split
    · next none =>
      exact stops_error (divides link found (Bool.eq_false_of_not_eq_true spatial) none)
    · exact spatialLatency_stops allows node _ _ _ _ rows 0 _ 0 _

theorem finishTile_stops (computed : ∀ rows, Stops p (computeLatency ctx.ev node rows)) (t : Tally) :
    Stops p (PerfAnalysis.finishTile ctx node t) := by
  apply (computed _).bind
  intro process_latency _
  exact stops_ok _

end TileExp.Analysis
