import Latias.Latencies.Runnable
import Latias.Traffic.Tiles
import Latias.Visits.Reaches
import Latias.Tensors.Prepares

/-! When an evaluation completes. -/

namespace TileExp.Analysis

open Checked LoopNest

variable {ev : Evaluator} {ctx : PerfContext} {node ptr : NodePtr} {tree : EvaTree}
  {leaf_vec_ : List NodePtr} {loops : List LoopState} {t t' t₀ : Tally} {skew : String → Int}
  {dim_name name : String} {is_input : Bool}

/-! What a completed call tells of the tensors of its Tile. -/

theorem loopedFrom_of_range (init : InitAnalysis.OffsetsInit ctx.ev ctx.offsets)
    (inside : node ∈ Rose.postorder [] ctx.ev.root_)
    (running : ∀ loop ∈ loops, InProgress ctx.ev loop) {range : StEd}
    (call : currentDimRange ctx (walkAt ctx node loops) skew dim_name = .ok range) :
    ctx.ev.LoopedFrom node dim_name := by
  cases own : ownLoops node dim_name loops with
  | cons loop rest =>
    obtain ⟨outer, rfl, rfl⟩ := mem_ownLoops.mp (own ▸ List.mem_cons_self : loop ∈ ownLoops _ _ loops)
    exact ⟨loop.node, inside, List.suffix_rfl, (running loop outer).declared⟩
  | nil =>
    obtain ⟨carrier, carries, _⟩ :=
      currentDimRange_below (InitAnalysis.mem_positions.mp inside) own call
    exact ⟨carrier, InitAnalysis.mem_positions.mpr carries.found, carries.under,
      (init.carries carrier dim_name).mp carries.carries⟩

theorem currentDimRange_lt (init : InitAnalysis.OffsetsInit ctx.ev ctx.offsets)
    (positive : ctx.ev.PositiveBounds) (found : (ctx.ev.root_.get? node).isSome)
    (running : ∀ loop ∈ loops, InProgress ctx.ev loop) {range : StEd}
    (call : currentDimRange ctx (walkAt ctx node loops) skew dim_name = .ok range) :
    range.1 < range.2 := by
  cases own : ownLoops node dim_name loops with
  | cons loop rest =>
    obtain ⟨outer, rfl, rfl⟩ := mem_ownLoops.mp (own ▸ List.mem_cons_self : loop ∈ ownLoops _ _ loops)
    rw [currentDimRange_own own] at call
    cases call
    have progress := running loop outer
    have offsets := offsets_pos init positive loop.node found loop.name_ progress.declared
    have covered := offsets.range (show 1 ≤ loop.loop_end - loop.ori_start by
      have running := progress.running
      omega)
    have expand : (loop.loop_end - 1) * (ctx.offsets.dim_offset_ loop.node loop.name_).getD 0 =
        loop.ori_start * (ctx.offsets.dim_offset_ loop.node loop.name_).getD 0 +
          (loop.loop_end - loop.ori_start - 1) *
            (ctx.offsets.dim_offset_ loop.node loop.name_).getD 0 := by ring
    simp only [PerfContext.dim_offset_]
    omega
  | nil =>
    obtain ⟨carrier, carries, rfl⟩ := currentDimRange_below found own call
    have carried := (init.carries carrier dim_name).mp carries.carries
    have offsets := offsets_pos init positive carrier carries.found dim_name carried
    have covered := offsets.range (lastBounds_pos positive carried).2
    simp only [PerfContext.dim_offset_]
    rw [Int.mul_comm]
    omega

theorem rangeVolume_pos {ranges : Table DimRange}
    (filled : ∀ name range, ranges.lookup name = some range → 0 < range.length) :
    0 < rangeVolume ranges := by
  have volume := rangeVolume_eq ⟨"", [], ranges⟩
  rw [volume]
  apply Finset.prod_pos
  intro dim_name member
  rw [List.mem_toFinset] at member
  obtain ⟨range, found⟩ := Option.isSome_iff_exists.mp (AList.lookup_isSome.mpr member)
  rw [@range_of_lookup ⟨"", [], ranges⟩ _ _ found]
  exact filled dim_name range found

section

variable {entry : Sigma fun _ : String => TensorMap} {charge : Charge}
  (made : ChargedAt ctx node loops skew is_input entry charge)

include made in
theorem dims_of_charge (inner : node ≠ []) : entry.2.tensor_dims_ ≠ [] := by
  intro none
  have filled : charge.after.dim_ranges_.entries ≠ [] := by
    have moved := made.amount
    rw [tensorMovement, if_neg (parent_ne_none inner)] at moved
    split at moved
    · obtain ⟨_, _, moved⟩ := bind_eq_ok.mp moved
      obtain ⟨_, some, _⟩ := bind_eq_ok.mp moved
      exact tileexpAssert_eq_ok.mp some
    · obtain ⟨_, some, _⟩ := bind_eq_ok.mp moved
      exact tileexpAssert_eq_ok.mp some
  obtain ⟨range, member⟩ := List.exists_mem_of_ne_nil _ filled
  have found := AList.mem_lookup_iff.mpr member
  rw [made.ranges.outside range.1 (by rw [none]; exact List.not_mem_nil)] at found
  cases found

include made in
theorem first_charge_pos (init : InitAnalysis.OffsetsInit ctx.ev ctx.offsets)
    (positive : ctx.ev.PositiveBounds) (found : (ctx.ev.root_.get? node).isSome)
    (running : ∀ loop ∈ loops, InProgress ctx.ev loop) (inner : node ≠ [])
    (blank : entry.2.dim_ranges_ = ∅) (input : is_input = true) : 0 < charge.amount := by
  subst input
  have moved := made.amount
  rw [tensorMovement, if_neg (parent_ne_none inner), if_pos rfl, made.before] at moved
  obtain ⟨_, _, moved⟩ := bind_eq_ok.mp moved
  obtain ⟨_, _, moved⟩ := bind_eq_ok.mp moved
  have none : entry.2.dim_ranges_.entries = [] := by
    rw [blank]
    rfl
  rw [if_pos none] at moved
  rw [← Except.ok.inj moved]
  apply rangeVolume_pos
  intro name range at_name
  by_cases dim : name ∈ entry.2.tensor_dims_
  · obtain ⟨bounds, computed, at_bounds⟩ := made.ranges.inside name dim
    cases at_name.symm.trans at_bounds
    have bound := currentDimRange_lt init positive found running computed
    simp only [DimRange.length]
    omega
  · rw [made.ranges.outside name dim] at at_name
    cases at_name

end

theorem totalAmount_pos {cs : List Charge} {q : Charge → Bool} (each : ∀ charge ∈ cs, 0 < charge.amount)
    {charge : Charge} (member : charge ∈ cs) (picked : q charge = true) :
    0 < totalAmount (cs.filter q) := by
  have some : cs.filter q ≠ [] := List.ne_nil_of_mem (List.mem_filter.mpr ⟨member, picked⟩)
  have inside : ∀ charge ∈ cs.filter q, 0 < charge.amount :=
    fun charge member => each charge (List.mem_filter.mp member).1
  apply List.sum_pos
  · intro amount member
    obtain ⟨charge, own, rfl⟩ := List.mem_map.mp member
    exact inside charge own
  · simpa using some

/-! What a completed call tells of the links. -/

theorem getInputLatency_eq_ok {dm_tile dm_trans latency : Int} (tile : ev.get_type node = .Tile)
    (call : getInputLatency ev node dm_tile dm_trans = .ok latency) :
    ∃ first second, transInputLatency ev node dm_trans = .ok first ∧
      tileInputLatency ev node dm_tile = .ok second := by
  rw [getInputLatency, if_neg (by rw [tile]; simp)] at call
  obtain ⟨first, trans, call⟩ := bind_eq_ok.mp call
  obtain ⟨second, tile, _⟩ := bind_eq_ok.mp call
  exact ⟨first, second, trans, tile⟩

theorem source_of_trans {dm_trans latency : Int} (inner : node ≠ []) (moved : 0 < dm_trans)
    (call : transInputLatency ev node dm_trans = .ok latency) :
    ∃ source, findSource ev node (findCurrentNodePosition node) = .ok source ∧
      HasBandwidth ev (source.1 ++ "2" ++ ev.target_level node) := by
  rw [transInputLatency, if_pos ⟨moved, parent_ne_none inner⟩] at call
  obtain ⟨source, search, call⟩ := bind_eq_ok.mp call
  exact ⟨source, search, hasBandwidth_of_transfer call⟩

theorem source_of_tile {dm_tile latency : Int} (inner : node ≠ []) (moved : 0 < dm_tile)
    (call : tileInputLatency ev node dm_tile = .ok latency) :
    ∃ source, findSource ev node (findCurrentNodePosition node) = .ok source ∧
      (ev.target_level node ≠ source.1 → HasBandwidth ev (source.1 ++ "2" ++ ev.target_level node)) := by
  rw [tileInputLatency, if_pos ⟨moved, parent_ne_none inner⟩] at call
  obtain ⟨source, search, call⟩ := bind_eq_ok.mp call
  refine ⟨source, search, fun apart => ?_⟩
  rw [if_neg apart] at call
  exact hasBandwidth_of_transfer call

theorem transTally_former {w : Walk} (call : PerfAnalysis.transTally ctx w t = .ok t') :
    ∃ former ∈ (ctx.leaf_vec_.take (ctx.leaf_vec_.idxOf w.current_node_)).getLast?,
      ctx.ev.get_type former = .Trans → HasBandwidth ctx.ev
        (ctx.ev.target_level former ++ "2" ++ ctx.ev.target_level w.current_node_) := by
  simp only [PerfAnalysis.transTally] at call
  cases place : ctx.leaf_vec_.idxOf w.current_node_ with
  | zero =>
    rw [place] at call
    cases call
  | succ current_idx =>
    simp only [place] at call
    cases here : ctx.leaf_vec_[current_idx]? with
    | none =>
      simp only [here] at call
      cases call
    | some former =>
      simp only [here] at call
      refine ⟨former, ?_, fun trans => ?_⟩
      · rw [List.getLast?_take, if_neg (Nat.succ_ne_zero _), Nat.add_sub_cancel, here]
        rfl
      · rw [if_pos trans] at call
        apply (quotient_good_iff (fun _ => 0)
          (((((t.setInputLatency w.current_node_ 0).setProcessLatency w.current_node_
            0).setOutputLatency w.current_node_ 0)).setOutputLatency w.current_node_)).mp
        rw [call]
        exact stops_ok t'

/-! The tree that the first passes leave. -/

theorem Evaluator.prepare_blank (ready : ev.prepare = .ok (tree, leaf_vec_)) {map : TensorMap}
    (found : (tree.table is_input node).lookup name = some map) : map = ev.blankMap name := by
  rw [Evaluator.prepare, Evaluator.reset_fresh] at ready
  obtain ⟨counted, count, init⟩ := bind_eq_ok.mp ready
  obtain ⟨_, inherits⟩ := GetLoopCount.run_eq_ok (fun _ => rfl) count
  have empty : counted.NoTensors := by
    rw [inherits]
    exact ⟨fun _ => rfl, fun _ => rfl⟩
  obtain ⟨_, tables⟩ := InitAnalysis.run_tensors empty init
  cases is_input with
  | false => exact tables.blank_outputs node name map found
  | true => exact tables.blank_inputs node name map found

theorem runTables_start (ready : ev.prepare = .ok (tree, leaf_vec_)) :
    RunTables (tree.context ev leaf_vec_) (PerfAnalysis.initial tree).tally
      (PerfAnalysis.initial tree).tally := by
  refine ⟨⟨fun _ _ => ⟨id, id⟩, fun _ _ => rfl⟩, ?_⟩
  intro node is_input name map found
  have blank : map = ev.blankMap name := ev.prepare_blank ready found
  rw [blank]
  rfl

theorem run_of_runnable (zero : ev.StartsAtZero) (positive : ev.PositiveBounds)
    (ready : ev.prepare = .ok (tree, leaf_vec_)) (runnable : ev.Runnable tree leaf_vec_) :
    ∃ s, PerfAnalysis.run ev tree leaf_vec_ = .ok s := by
  have prepared := Evaluator.prepare_eq_ok ready
  have parts := runnable.partsComplete prepared (Evaluator.prepare_offsets ready) zero positive
  obtain ⟨t, visited⟩ := parts.visit [] ev.root_ rfl trivial [] (PerfAnalysis.initial tree).tally
    (fun _ inside => by cases inside) (runTables_start ready)
  exact ⟨_, by rw [PerfAnalysis.run_eq prepared.idle, visited, ok_bind]⟩

theorem TileEntered.charged {ins outs : List Charge} {tile trans : Int}
    (entered : TileEntered ctx node loops t t' ins outs tile trans) (is_input : Bool) :
    ∃ cs, charges ctx node loops t.dim_skew is_input (t.table is_input node) = .ok cs := by
  cases is_input with
  | true => exact ⟨ins, entered.inputs⟩
  | false => exact ⟨outs, entered.outputs⟩

theorem source_of_run (init : InitAnalysis.OffsetsInit ctx.ev ctx.offsets)
    (positive : ctx.ev.PositiveBounds) (visited : ctx.ev.Visited .Tile node) (inner : node ≠ [])
    (running : ∀ loop ∈ loops, InProgress ctx.ev loop)
    (blank : ∀ name map, (t.input_tensors_ node).lookup name = some map → map.dim_ranges_ = ∅)
    {ins : List Charge} (call : charges ctx node loops skew true (t.input_tensors_ node) = .ok ins)
    {latency : Int} (moved : getInputLatency ctx.ev node
      (totalAmount (ins.filter fun charge => charge.tensor_name ≠ name))
      (totalAmount (ins.filter fun charge => charge.tensor_name = name)) = .ok latency) :
    (name ∈ t.input_tensors_ node → ∃ source,
      findSource ctx.ev node (findCurrentNodePosition node) = .ok source ∧
        HasBandwidth ctx.ev (source.1 ++ "2" ++ ctx.ev.target_level node)) ∧
    ((∃ other ∈ t.input_tensors_ node, other ≠ name) → ∃ source,
      findSource ctx.ev node (findCurrentNodePosition node) = .ok source ∧
        (ctx.ev.target_level node ≠ source.1 →
          HasBandwidth ctx.ev (source.1 ++ "2" ++ ctx.ev.target_level node))) := by
  obtain ⟨first, second, trans, tile⟩ := getInputLatency_eq_ok visited.2.1 moved
  have found := InitAnalysis.mem_positions.mp visited.1
  have paid : ∀ charge ∈ ins, 0 < charge.amount := by
    intro charge member
    obtain ⟨entry, at_entry, made⟩ := exists_entry_of_charge call member
    exact first_charge_pos made init positive found running inner
      (blank entry.1 entry.2 (AList.mem_lookup_iff.mpr at_entry)) rfl
  have charged {tensor : String} (member : tensor ∈ t.input_tensors_ node) :
      ∃ charge ∈ ins, charge.tensor_name = tensor := by
    obtain ⟨map, at_tensor⟩ := Option.isSome_iff_exists.mp (AList.lookup_isSome.mpr member)
    obtain ⟨charge, inside, made⟩ := each_of_mapM call (AList.mem_lookup_iff.mp at_tensor)
    exact ⟨charge, inside, (chargeTensor_eq_ok made).tensor_name⟩
  constructor
  · intro member
    obtain ⟨charge, inside, same⟩ := charged member
    exact source_of_trans inner (totalAmount_pos paid inside (decide_eq_true same)) trans
  · rintro ⟨other, member, apart⟩
    obtain ⟨charge, inside, same⟩ := charged member
    exact source_of_tile inner
      (totalAmount_pos paid inside (decide_eq_true (same ▸ apart))) tile

/-- A mapping that is analysed to the end has what the parts of the run need. -/
theorem runnable_of_run (zero : ev.StartsAtZero) (positive : ev.PositiveBounds)
    (ready : ev.prepare = .ok (tree, leaf_vec_)) {s : PerfState}
    (run : PerfAnalysis.run ev tree leaf_vec_ = .ok s) : ev.Runnable tree leaf_vec_ := by
  have prepared := Evaluator.prepare_eq_ok ready
  have init := Evaluator.prepare_offsets ready
  rw [PerfAnalysis.run_eq prepared.idle] at run
  obtain ⟨t, visited, _⟩ := bind_eq_ok.mp run
  have ran (kind : NodeType) (node : NodePtr) (there : ev.Visited kind node) :
      Ran (tree.context ev leaf_vec_)
        (RunTables (tree.context ev leaf_vec_) (PerfAnalysis.initial tree).tally)
        tree.toEvaTensors node :=
    visit_ran prepared.accepted.leaves (runTables_kept _ _)
      (fun node loops _ => eachRuns zero positive node loops) [] ev.root_ rfl [] _ t
      (fun _ inside => by cases inside) (fun _ inside => by cases inside) (runTables_start ready)
      (fun _ _ _ => rfl) visited node List.nil_suffix (InitAnalysis.mem_positions.mp there.1) there.2.2
  constructor
  · exact fun node there => (ran _ node there).loops there.2.1
  · intro node there
    have filled := (ran _ node there).scope there.2.1
    by_contra none
    push Not at none
    exact filled (scopeRow_eq_nil none 0)
  · intro node there
    obtain ⟨loops, t, t', held, _, _, enters⟩ := (ran _ node there).enterTile there.2.1
    obtain ⟨name, _, _, named, _⟩ := enterTile_split enters
    rw [transTensorName_same held.1.2] at named
    rw [Evaluator.transName, Option.isSome_iff_exists]
    exact ⟨name, mem_toOption.mpr named⟩
  · intro node there is_input name member
    obtain ⟨loops, t, t', held, around, same, enters⟩ := (ran _ node there).enterTile there.2.1
    obtain ⟨ins, outs, _, _, entered⟩ := enterTile_eq_ok enters
    obtain ⟨cs, call⟩ := entered.charged is_input
    obtain ⟨map, at_name⟩ := Option.isSome_iff_exists.mp (AList.lookup_isSome.mpr member)
    rw [← same is_input] at at_name
    obtain ⟨charge, _, made⟩ := each_of_mapM call (AList.mem_lookup_iff.mp at_name)
    have dims : map.tensor_dims_ = ev.tensorDims name := held.2 node is_input name map at_name
    have at_node := chargeTensor_eq_ok made
    constructor
    · exact fun inner => dims ▸ dims_of_charge at_node inner
    · intro dim_name own
      obtain ⟨range, computed, _⟩ := at_node.ranges.inside dim_name (dims.symm ▸ own)
      have init' : InitAnalysis.OffsetsInit (tree.context ev leaf_vec_).ev
          (tree.context ev leaf_vec_).offsets := init
      exact loopedFrom_of_range init' there.1 around.running computed
  · intro node there inner moves
    obtain ⟨loops, t, t', held, around, same, enters⟩ := (ran _ node there).enterTile there.2.1
    obtain ⟨name, ins, outs, named, entered⟩ := enterTile_split enters
    rw [transTensorName_same held.1.2] at named
    have tables : t.input_tensors_ node = tree.input_tensors_ node := same true
    have latencies := entered.latencies
    rw [TransferLatencies, if_neg (parent_ne_none inner)] at latencies
    have blank (tensor : String) (map : TensorMap)
        (found : (t.input_tensors_ node).lookup tensor = some map) : map.dim_ranges_ = ∅ := by
      rw [tables] at found
      have same_map : map = ev.blankMap tensor :=
        ev.prepare_blank ready (show (tree.table true node).lookup tensor = some map from found)
      rw [same_map]
      rfl
    have init' : InitAnalysis.OffsetsInit (tree.context ev leaf_vec_).ev
        (tree.context ev leaf_vec_).offsets := init
    obtain ⟨from_trans, from_tile⟩ := source_of_run init' positive there inner around.running blank
      entered.inputs latencies.1
    rw [tables] at from_trans from_tile
    have only {other : String} (member : other ∈ ev.transName tree leaf_vec_ node) : other = name := by
      have read := mem_toOption.mp member
      rw [named] at read
      exact (Except.ok.inj read).symm
    by_cases trans : ev.MovesFromTrans tree leaf_vec_ node
    · obtain ⟨other, read, member⟩ := trans
      obtain ⟨source, search, given⟩ := from_trans (only read ▸ member)
      exact ⟨source, search, fun _ => given⟩
    · obtain ⟨other, read, tensor, member, apart⟩ := moves.resolve_left trans
      obtain ⟨source, search, given⟩ :=
        from_tile ⟨tensor, AList.mem_keys.mpr member, only read ▸ apart⟩
      exact ⟨source, search, fun needed => given (needed.resolve_left trans)⟩
  · intro node there inner
    obtain ⟨loops, t, t', _, _, _, enters⟩ := (ran _ node there).enterTile there.2.1
    obtain ⟨ins, outs, _, _, entered⟩ := enterTile_eq_ok enters
    have latencies := entered.latencies
    rw [TransferLatencies, if_neg (parent_ne_none inner)] at latencies
    have call : getOutputLatency ev node (totalAmount outs) = .ok (t'.output_latency_ node) :=
      latencies.2
    rw [getOutputLatency_inner there.2.1 inner] at call
    obtain ⟨source, at_source, call⟩ := bind_eq_ok.mp call
    obtain ⟨target, at_target, call⟩ := bind_eq_ok.mp call
    exact ⟨source, target, at_source, at_target, hasBandwidth_of_transfer call⟩
  · intro node there
    obtain ⟨loops, t, t', call⟩ := (ran _ node there).transfer there.2.1
    exact transTally_former call
  · intro node there
    obtain ⟨rows, latency, filled, built, computed⟩ := (ran _ node there).computeLatency there.2.1
    obtain ⟨link, computable, _⟩ := computeLatency_iff.mp computed
    obtain ⟨row, member⟩ := List.exists_mem_of_ne_nil rows filled
    refine ⟨link, computable.linked_first, computable.cores, ?_⟩
    have linked := computable.linked row member
    rwa [← List.length_map Latency.origin, built row member] at linked

/-- An evaluation whose first passes have accepted the mapping, and whose loops all run, completes if
    and only if the mapping and the links have what the parts of the run need. -/
theorem evaluate_completes_iff (zero : ev.StartsAtZero) (positive : ev.PositiveBounds)
    (ready : ev.prepare = .ok (tree, leaf_vec_)) :
    (∃ state, ev.evaluate ev.construct = .ok state) ↔ ev.Runnable tree leaf_vec_ := by
  rw [Evaluator.evaluate_eq, ready, ok_bind]
  constructor
  · rintro ⟨state, run⟩
    obtain ⟨s, run, _⟩ := bind_eq_ok.mp run
    exact runnable_of_run zero positive ready run
  · intro runnable
    obtain ⟨s, run⟩ := run_of_runnable zero positive ready runnable
    exact ⟨_, bind_eq_ok.mpr ⟨s, run, rfl⟩⟩

theorem evaluate_completes_iff_staged : ∃ tree leaf_vec_,
    (staged ["B"]).prepare = .ok (tree, leaf_vec_) ∧
    (∃ state, (staged ["B"]).evaluate (staged ["B"]).construct = .ok state) ∧
    (staged ["B"]).Runnable tree leaf_vec_ := by
  obtain ⟨⟨tree, leaf_vec_⟩, ready⟩ := exists_of_isOk
    (show (staged ["B"]).prepare.isOk = true by decide +kernel)
  have completed : ∃ state, (staged ["B"]).evaluate (staged ["B"]).construct = .ok state :=
    exists_of_isOk (by decide +kernel)
  have both := evaluate_completes_iff (by decide +kernel) (by decide +kernel) ready
  exact ⟨tree, leaf_vec_, ready, completed, both.mp completed⟩

end TileExp.Analysis
