import Latias.Latencies.Divisors
import Latias.Latencies.TileLatency
import Latias.Offsets.Total
import Latias.Ranges.FirstRange
import Latias.Visits.Progress

/-! What a mapping needs for a run of `PerfAnalysis` to complete, and that it completes then. -/

namespace TileExp.Analysis

open Checked LoopNest

namespace Evaluator

variable (ev : Evaluator) (tree : EvaTree) (leaf_vec_ : List NodePtr)

def Visited (kind : NodeType) (node : NodePtr) : Prop :=
  node ∈ Rose.postorder [] ev.root_ ∧ ev.get_type node = kind ∧ ev.Reached node

instance (kind : NodeType) (node : NodePtr) : Decidable (ev.Visited kind node) :=
  inferInstanceAs (Decidable (_ ∧ _ ∧ _))

def LoopedFrom (node : NodePtr) (dim_name : String) : Prop :=
  ∃ ptr ∈ Rose.postorder [] ev.root_, node <:+ ptr ∧ dim_name ∈ ev.dims ptr

/-- What each part of a run needs of the mapping and of the links, at the nodes that the run
    visits. -/
structure Runnable : Prop where
  loops : ∀ node, ev.Visited .Tile node →
    ev.loopnests_ node ≠ [] ∧ ∀ loop ∈ ev.loopnests_ node, loop.stride = 1
  scopes : ∀ node, ev.Visited .Scope node →
    ∃ c ∈ (ev.ori_node_ node).children, Node.get_type c ≠ .Trans
  names : ∀ node, ev.Visited .Tile node → (ev.transName tree leaf_vec_ node).isSome
  tensors : ∀ node, ev.Visited .Tile node → ∀ is_input, ∀ name ∈ tree.table is_input node,
    (node ≠ [] → ev.tensorDims name ≠ []) ∧ ∀ dim_name ∈ ev.tensorDims name, ev.LoopedFrom node dim_name
  inputs : ∀ node, ev.Visited .Tile node → node ≠ [] →
    ev.MovesFromTrans tree leaf_vec_ node ∨ ev.MovesFromTile tree leaf_vec_ node →
      ∃ source, findSource ev node (findCurrentNodePosition node) = .ok source ∧
        (ev.MovesFromTrans tree leaf_vec_ node ∨ ev.target_level node ≠ source.1 →
          HasBandwidth ev (source.1 ++ "2" ++ ev.target_level node))
  outputs : ∀ node, ev.Visited .Tile node → node ≠ [] →
    ∃ source target, outputSource ev node = .ok source ∧ findTarget ev node = .ok target ∧
      HasBandwidth ev (source ++ "2" ++ target.1)
  transfers : ∀ node, ev.Visited .Trans node →
    ∃ former ∈ (leaf_vec_.take (leaf_vec_.idxOf node)).getLast?, ev.get_type former = .Trans →
      HasBandwidth ev (ev.target_level former ++ "2" ++ ev.target_level node)
  blocks : ∀ node, ev.Visited .Tile node → ∃ link, getInterConNode ev node 0 = .ok link ∧
    (isTemporal (ev.ori_node_ node) = true ∨ link.fanout_ ≠ 0) ∧ ev.Linked node (rowOf ev node).length

end Evaluator

variable {ev : Evaluator} {ctx : PerfContext} {node ptr : NodePtr} {tree : EvaTree}
  {leaf_vec_ : List NodePtr} {loops : List LoopState} {t t' t₀ : Tally} {skew : String → Int}
  {dim_name name : String} {is_input : Bool}

/-! The rows. -/

theorem scopeRow_ne_nil {cs : List Node} (some : ∃ c ∈ cs, Node.get_type c ≠ .Trans) (i : Nat) :
    scopeRow ptr i cs ≠ [] := by
  induction cs generalizing i with
  | nil =>
    obtain ⟨c, member, _⟩ := some
    cases member
  | cons c cs ih =>
    rw [scopeRow]
    by_cases trans : Node.get_type c = .Trans
    · rw [if_pos trans]
      apply ih
      obtain ⟨d, member, other⟩ := some
      rcases List.mem_cons.mp member with rfl | later
      · exact absurd trans other
      · exact ⟨d, later, other⟩
    · rw [if_neg trans]
      exact List.cons_ne_nil _ _

theorem scopeRow_eq_nil {cs : List Node} (none : ∀ c ∈ cs, Node.get_type c = .Trans) (i : Nat) :
    scopeRow ptr i cs = [] := by
  induction cs generalizing i with
  | nil => rfl
  | cons c cs ih =>
    rw [scopeRow, if_pos (none c List.mem_cons_self)]
    exact ih (fun d member => none d (List.mem_cons_of_mem c member)) (i + 1)

theorem tileRow_ne_nil {cs : List Node} {i : Nat} {row : List NodePtr}
    (scopes : ∀ (j : Nat) (c : Node), cs[j]? = some c →
      (∀ k < j, ∀ d : Node, cs[k]? = some d → Node.get_type d ≠ .Scope) →
        Node.get_type c = .Scope → ∃ d ∈ c.children, Node.get_type d ≠ .Trans)
    (filled : row ≠ [] ∨ cs ≠ []) : tileRow ptr i cs row ≠ [] := by
  induction cs generalizing i row with
  | nil => exact filled.resolve_right (by simp)
  | cons c cs ih =>
    rw [tileRow]
    by_cases scope : Node.get_type c = .Scope
    · rw [if_pos scope]
      exact scopeRow_ne_nil (scopes 0 c rfl (fun k bound => absurd bound (Nat.not_lt_zero k)) scope) 0
    · rw [if_neg scope]
      apply ih _ (Or.inl (by simp))
      intro j d place before kind
      apply scopes (j + 1) d place _ kind
      intro k bound e here
      cases k with
      | zero =>
        cases here
        exact scope
      | succ k => exact before k (Nat.lt_of_succ_lt_succ bound) e here

/-! The tensors of a Tile. -/

def SameDims (ev : Evaluator) (t : Tally) : Prop := ∀ node is_input name map,
  (t.table is_input node).lookup name = some map → map.tensor_dims_ = ev.tensorDims name

theorem writeCharges_dims {w : Walk} {table : Table TensorMap} {cs : List Charge} {map : TensorMap}
    (call : table.entries.mapM (chargeTensor ctx w skew is_input) = .ok cs)
    (dims : ∀ name map, table.lookup name = some map → map.tensor_dims_ = ev.tensorDims name)
    (found : (writeCharges table cs).lookup name = some map) :
    map.tensor_dims_ = ev.tensorDims name := by
  rcases Keys.exists_of_lookup_insertAll found with ⟨charge, member, rfl, rfl⟩ | before
  · obtain ⟨entry, at_entry, made⟩ := mem_of_mapM call member
    obtain ⟨after, mapped, made⟩ := bind_eq_ok.mp made
    obtain ⟨amount, _, result⟩ := bind_eq_ok.mp made
    obtain ⟨ranges, _, same⟩ := bind_eq_ok.mp mapped
    cases result
    cases same
    exact dims entry.1 entry.2 (AList.mem_lookup_iff.mpr at_entry)
  · exact dims name map before

theorem sameDims_kept (ctx : PerfContext) :
    Parts ctx fun t t' => SameDims ctx.ev t → SameDims ctx.ev t' := by
  apply Kept.parts
  constructor
  case refl => exact fun _ held => held
  case trans => exact fun first second held => second (first held)
  case record => exact fun _ _ held => held
  case setRow => exact fun _ _ _ held => held
  case setRows => exact fun _ _ _ held => held
  case clearSkew => exact fun _ _ _ held => held
  case advanceSkew => exact fun _ _ _ _ held => held
  case restoreSkew => exact fun _ _ _ held => held
  case op => exact fun _ _ _ _ held => held
  case transfer =>
    intro t t' node loops _ call held
    rw [transTally_eq_ok call]
    exact held
  case enterTile =>
    intro t t' node loops _ call held ptr is_input name map found
    obtain ⟨ins, outs, tile, trans, entered⟩ := enterTile_eq_ok call
    rw [entered.result] at found
    by_cases here : ptr = node
    · subst here
      cases is_input with
      | true =>
        simp only [EvaTensors.table, if_true, Function.update_self] at found
        exact writeCharges_dims entered.inputs (fun name map => held ptr true name map) found
      | false =>
        simp only [EvaTensors.table, Bool.false_eq_true, if_false, Function.update_self] at found
        exact writeCharges_dims entered.outputs (fun name map => held ptr false name map) found
    · apply held ptr is_input name map
      cases is_input <;> simpa [EvaTensors.table, here] using found
  case finishTile =>
    intro t t' node _ call held
    obtain ⟨latency, _, rfl⟩ := finishTile_eq_ok call
    split
    · exact held
    · exact held

theorem currentDimRange_total (init : InitAnalysis.OffsetsInit ctx.ev ctx.offsets)
    (found : (ctx.ev.root_.get? node).isSome) (looped : ctx.ev.LoopedFrom node dim_name) :
    ∃ range, currentDimRange ctx (walkAt ctx node loops) skew dim_name = .ok range := by
  cases own : ownLoops node dim_name loops with
  | cons loop rest => exact ⟨_, currentDimRange_own own⟩
  | nil =>
    obtain ⟨ptr, inside, under, member⟩ := looped
    have carries := (init.carries ptr dim_name).mpr member
    have search := InitAnalysis.BFSOffsetLoop_isSome found under (InitAnalysis.mem_positions.mp inside)
      carries
    obtain ⟨pair, search⟩ := Option.isSome_iff_exists.mp search
    unfold ownLoops at own
    simp only [currentDimRange, walkAt, Walk.ofLoops, own, List.map_nil]
    rw [search]
    exact ⟨_, rfl⟩

theorem chargeTensor_total (init : InitAnalysis.OffsetsInit ctx.ev ctx.offsets)
    (found : (ctx.ev.root_.get? node).isSome) (entry : Sigma fun _ : String => TensorMap)
    (some : node ≠ [] → entry.2.tensor_dims_ ≠ [])
    (looped : ∀ dim_name ∈ entry.2.tensor_dims_, ctx.ev.LoopedFrom node dim_name) :
    ∃ charge, chargeTensor ctx (walkAt ctx node loops) skew is_input entry = .ok charge := by
  obtain ⟨after, mapped⟩ : ∃ after, currentTensorMap ctx (walkAt ctx node loops) skew entry.1
      entry.2.tensor_dims_ = .ok after := by
    unfold currentTensorMap
    obtain ⟨table, folded, _⟩ := @foldlM_total _ _ _ (fun (dim_range_map : Table DimRange) dim_name => do
        let dim_range ← currentDimRange ctx (walkAt ctx node loops) skew dim_name
        .ok (dim_range_map.insert dim_name ⟨dim_name, dim_range.1, dim_range.2⟩))
      entry.2.tensor_dims_ (fun _ => True) ∅ trivial fun dim_name member table _ => by
        obtain ⟨range, computed⟩ :=
          @currentDimRange_total ctx node loops skew dim_name init found (looped dim_name member)
        exact ⟨_, by rw [computed, ok_bind], trivial⟩
    exact ⟨_, bind_eq_ok.mpr ⟨table, folded, rfl⟩⟩
  obtain ⟨ranges, rfl, at_ranges⟩ := currentTensorMap_eq_ok mapped
  obtain ⟨amount, moved⟩ : ∃ amount, tensorMovement is_input node entry.2
      ⟨entry.1, entry.2.tensor_dims_, ranges⟩ = .ok amount := by
    unfold tensorMovement
    by_cases root : get_parent node = none
    · exact ⟨0, if_pos root⟩
    · have filled : ranges.entries ≠ [] := by
        intro none
        have inner : node ≠ [] := fun here => root (by rw [here]; rfl)
        obtain ⟨dim_name, rest, listed⟩ := List.exists_cons_of_ne_nil (some inner)
        obtain ⟨range, _, lookup⟩ := at_ranges.inside dim_name (by rw [listed]; exact List.mem_cons_self)
        have member := AList.mem_lookup_iff.mp lookup
        rw [none] at member
        cases member
      rw [if_neg root]
      split
      · simp only [calTensorMapDM, tileexpAssert, if_true, ok_bind, ne_eq, filled, not_false_eq_true]
        split
        · exact ⟨_, rfl⟩
        · exact ⟨_, rfl⟩
      · exact ⟨_, by rw [calTensorMapVolume, tileexpAssert, if_pos filled, ok_bind]⟩
  exact ⟨_, bind_eq_ok.mpr ⟨_, mapped, bind_eq_ok.mpr ⟨amount, moved, rfl⟩⟩⟩

theorem addCurrentTensor_total (init : InitAnalysis.OffsetsInit ctx.ev ctx.offsets)
    (found : (ctx.ev.root_.get? node).isSome) (same : SameTransOutputs ctx t₀ t)
    (named : (transTensorName ctx t₀ node).toOption.isSome)
    (charged : ∀ entry ∈ (t.table is_input node).entries,
      (node ≠ [] → entry.2.tensor_dims_ ≠ []) ∧
        ∀ dim_name ∈ entry.2.tensor_dims_, ctx.ev.LoopedFrom node dim_name) :
    ∃ result, addCurrentTensor ctx (walkAt ctx node loops) is_input t = .ok result := by
  obtain ⟨name, read⟩ := Option.isSome_iff_exists.mp named
  have here : transTensorName ctx t node = .ok name := by
    rw [transTensorName_same same]
    exact mem_toOption.mp read
  obtain ⟨cs, call⟩ := mapM_total fun entry member =>
    @chargeTensor_total ctx node loops t.dim_skew is_input init found entry (charged entry member).1
      (charged entry member).2
  cases is_input with
  | true => exact ⟨_, bind_eq_ok.mpr ⟨name, here, bind_eq_ok.mpr ⟨cs, call, rfl⟩⟩⟩
  | false => exact ⟨_, bind_eq_ok.mpr ⟨name, here, bind_eq_ok.mpr ⟨cs, call, rfl⟩⟩⟩

theorem enterTile_total {w : Walk} {ins outs : Tally × Int × Int}
    (first : addCurrentTensor ctx w true t = .ok ins)
    (second : addCurrentTensor ctx w false ins.1 = .ok outs)
    (inputs : w.current_node_ ≠ [] →
      ∃ latency, getInputLatency ctx.ev w.current_node_ ins.2.1 ins.2.2 = .ok latency)
    (outputs : w.current_node_ ≠ [] →
      ∃ latency, getOutputLatency ctx.ev w.current_node_ outs.2.1 = .ok latency) :
    ∃ t', PerfAnalysis.enterTile ctx w t = .ok t' := by
  unfold PerfAnalysis.enterTile
  rw [first, ok_bind]
  simp only [second, ok_bind]
  by_cases root : get_parent w.current_node_ = none
  · rw [if_pos root]
    exact ⟨_, rfl⟩
  · have inner : w.current_node_ ≠ [] := fun here => root (by rw [here]; rfl)
    obtain ⟨input_latency, input_call⟩ := inputs inner
    obtain ⟨output_latency, output_call⟩ := outputs inner
    rw [if_neg root]
    simp only [input_call, output_call, ok_bind]
    exact ⟨_, rfl⟩

/-! The transfers. -/

theorem HasBandwidth.transfer {connection : String} (given : HasBandwidth ev connection)
    (amount : Int) : ∃ latency, (do
      let bandwidth ← ev.intercon_.bandwidth_ connection
      transferLatency ev amount bandwidth) = .ok latency := by
  obtain ⟨link, declared, nonzero⟩ := given
  have read : ev.intercon_.bandwidth_ connection = .ok link.bandwidth_ := by
    rw [InterCon.bandwidth_, declared]
  have quotient : divide (amount + link.bandwidth_ - 1) link.bandwidth_ = .ok _ := if_neg nonzero
  exact ⟨_, bind_eq_ok.mpr ⟨_, read, bind_eq_ok.mpr ⟨_, quotient, rfl⟩⟩⟩

theorem hasBandwidth_of_transfer {connection : String} {amount latency : Int} (call : (do
      let bandwidth ← ev.intercon_.bandwidth_ connection
      transferLatency ev amount bandwidth) = .ok latency) : HasBandwidth ev connection := by
  apply (transfer_good_iff amount).mp
  rw [call]
  exact stops_ok latency

theorem getInputLatency_total {dm_tile dm_trans : Int} {source : String × Bool}
    (search : findSource ev node (findCurrentNodePosition node) = .ok source)
    (given : 0 < dm_trans ∨ 0 < dm_tile ∧ ev.target_level node ≠ source.1 →
      HasBandwidth ev (source.1 ++ "2" ++ ev.target_level node)) :
    ∃ latency, getInputLatency ev node dm_tile dm_trans = .ok latency := by
  obtain ⟨first, trans⟩ : ∃ first, transInputLatency ev node dm_trans = .ok first := by
    unfold transInputLatency
    split
    · next moved =>
      rw [search, ok_bind]
      exact (given (Or.inl moved.1)).transfer dm_trans
    · exact ⟨0, rfl⟩
  obtain ⟨second, tile⟩ : ∃ second, tileInputLatency ev node dm_tile = .ok second := by
    unfold tileInputLatency
    split
    · next moved =>
      rw [search, ok_bind]
      split
      · exact ⟨0, rfl⟩
      · next apart => exact (given (Or.inr ⟨moved.1, apart⟩)).transfer dm_tile
    · exact ⟨0, rfl⟩
  unfold getInputLatency
  split
  · exact ⟨0, rfl⟩
  · exact ⟨_, bind_eq_ok.mpr ⟨first, trans, bind_eq_ok.mpr ⟨second, tile, rfl⟩⟩⟩

theorem getInputLatency_idle {dm_tile dm_trans : Int} (tile : ¬ 0 < dm_tile)
    (trans : ¬ 0 < dm_trans) : ∃ latency, getInputLatency ev node dm_tile dm_trans = .ok latency := by
  unfold getInputLatency transInputLatency tileInputLatency
  split
  · exact ⟨0, rfl⟩
  · rw [if_neg (fun moved => trans moved.1), if_neg (fun moved => tile moved.1)]
    exact ⟨_, rfl⟩

theorem getOutputLatency_total {source : String} {target : String × Bool}
    (tile : ev.get_type node = .Tile) (inner : node ≠ [])
    (at_source : outputSource ev node = .ok source) (at_target : findTarget ev node = .ok target)
    (given : HasBandwidth ev (source ++ "2" ++ target.1)) (data_movement : Int) :
    ∃ latency, getOutputLatency ev node data_movement = .ok latency := by
  rw [getOutputLatency_inner tile inner, at_source, ok_bind, at_target, ok_bind]
  exact given.transfer data_movement

theorem transTally_total {former : NodePtr} (w : Walk) (t : Tally)
    (member : w.current_node_ ∈ ctx.leaf_vec_)
    (last : former ∈ (ctx.leaf_vec_.take (ctx.leaf_vec_.idxOf w.current_node_)).getLast?)
    (given : ctx.ev.get_type former = .Trans → HasBandwidth ctx.ev
      (ctx.ev.target_level former ++ "2" ++ ctx.ev.target_level w.current_node_)) :
    ∃ t', PerfAnalysis.transTally ctx w t = .ok t' := by
  have bound := List.idxOf_lt_length_of_mem member
  simp only [PerfAnalysis.transTally]
  cases place : ctx.leaf_vec_.idxOf w.current_node_ with
  | zero =>
    rw [place] at last
    cases last
  | succ current_idx =>
    have same : ctx.leaf_vec_[current_idx]? = some former := by
      rw [place, List.getLast?_take, if_neg (Nat.succ_ne_zero _), Nat.add_sub_cancel] at last
      rw [List.getElem?_eq_getElem (by omega)] at last ⊢
      exact last
    simp only [same]
    split
    · next trans =>
      obtain ⟨link, declared, nonzero⟩ := given trans
      have read : ctx.ev.intercon_.bandwidth_ (ctx.ev.target_level former ++ "2" ++
          ctx.ev.target_level w.current_node_) = .ok link.bandwidth_ := by
        rw [InterCon.bandwidth_, declared]
      have quotient : divide 0 link.bandwidth_ = .ok _ := if_neg nonzero
      exact ⟨_, bind_eq_ok.mpr ⟨_, read, bind_eq_ok.mpr ⟨_, quotient, rfl⟩⟩⟩
    · exact ⟨_, rfl⟩

/-! The whole run. -/

theorem eachRuns (zero : ev.StartsAtZero) (positive : ev.PositiveBounds) (node : NodePtr)
    (loops : List LoopState) : EachRuns node (ev.loopnests_ node) loops := by
  have starts : ∀ loop ∈ ev.loopnests_ node, loop.start = 0 := by
    intro loop member
    cases found : ev.root_.get? node with
    | none =>
      rw [Evaluator.loopnests_, Evaluator.ori_node_, found] at member
      cases member
    | some sub => exact zero node (InitAnalysis.mem_positions.mpr (by rw [found]; rfl)) loop member
  have bounds : ∀ loop ∈ ev.loopnests_ node, 1 ≤ loop.end_ ∧ 1 ≤ loop.residual_end :=
    fun loop member => positive.at member
  generalize ev.loopnests_ node = dims at starts bounds
  induction dims generalizing loops with
  | nil => trivial
  | cons loop rest ih =>
    constructor
    · have runs := @loopEnd_pos node loop (bounds loop List.mem_cons_self) loops
      rw [starts loop List.mem_cons_self]
      omega
    · intro i _
      exact ih _ (fun l member => starts l (List.mem_cons_of_mem loop member))
        fun l member => bounds l (List.mem_cons_of_mem loop member)

def RunTables (ctx : PerfContext) (t₀ t : Tally) : Prop := TablesOf ctx t₀ t ∧ SameDims ctx.ev t

theorem runTables_kept (ctx : PerfContext) (t₀ : Tally) :
    Parts ctx fun t t' => RunTables ctx t₀ t → RunTables ctx t₀ t' := by
  apply ((tablesOf_kept ctx t₀).and (sameDims_kept ctx)).invariant
  exact fun _ _ kept held => ⟨kept.1 held.1, kept.2 held.2⟩

theorem table_of_noNewTensors (tables : NoNewTensors t₀ t)
    (member : name ∈ t.table is_input node) : name ∈ t₀.table is_input node := by
  cases is_input with
  | true => exact (tables node name).1 member
  | false => exact (tables node name).2 member

section

variable (prepared : ev.Prepared tree leaf_vec_) (runnable : ev.Runnable tree leaf_vec_)
  (init : InitAnalysis.OffsetsInit ev tree.toEvaOffsets)

include runnable in
theorem Evaluator.Runnable.charged (tables : RunTables (tree.context ev leaf_vec_)
      (PerfAnalysis.initial tree).tally t) (visited : ev.Visited .Tile node) (is_input : Bool) :
    ∀ entry ∈ (t.table is_input node).entries, (node ≠ [] → entry.2.tensor_dims_ ≠ []) ∧
      ∀ dim_name ∈ entry.2.tensor_dims_, ev.LoopedFrom node dim_name := by
  intro entry member
  have found := AList.mem_lookup_iff.mpr member
  have dims : entry.2.tensor_dims_ = ev.tensorDims entry.1 := tables.2 node is_input _ _ found
  have own : entry.1 ∈ t.table is_input node := AList.mem_keys.mpr (List.mem_map_of_mem member)
  rw [dims]
  exact runnable.tensors node visited is_input entry.1 (table_of_noNewTensors tables.1.1 own)

include runnable init in
theorem Evaluator.Runnable.enterTile (tables : RunTables (tree.context ev leaf_vec_)
      (PerfAnalysis.initial tree).tally t) (visited : ev.Visited .Tile node) (loops : List LoopState) :
    ∃ t', PerfAnalysis.enterTile (tree.context ev leaf_vec_)
      (walkAt (tree.context ev leaf_vec_) node loops) t = .ok t' := by
  have found := InitAnalysis.mem_positions.mp visited.1
  have named := runnable.names node visited
  obtain ⟨⟨t₁, dm_tile, dm_trans⟩, first⟩ := @addCurrentTensor_total (tree.context ev leaf_vec_)
    node loops t _ true init found tables.1.2 named (runnable.charged tables visited true)
  obtain ⟨name, ins, read, call, tile_eq, trans_eq, rest⟩ := addCurrentTensor_input first
  have same : SameTransOutputs (tree.context ev leaf_vec_) (PerfAnalysis.initial tree).tally t₁ := by
    rw [rest]
    exact tables.1.2
  have outputs : t₁.table false node = t.table false node := by
    rw [rest]
    rfl
  obtain ⟨⟨t₂, output_tile, output_trans⟩, second⟩ := @addCurrentTensor_total
    (tree.context ev leaf_vec_) node loops t₁ _ false init found same named
    (outputs ▸ runnable.charged tables visited false)
  have own {charge : Charge} (member : charge ∈ ins) :
      charge.tensor_name ∈ tree.input_tensors_ node := by
    obtain ⟨entry, at_entry, made⟩ := mem_of_mapM call member
    obtain ⟨after, _, made⟩ := bind_eq_ok.mp made
    obtain ⟨amount, _, result⟩ := bind_eq_ok.mp made
    cases result
    exact (tables.1.1 node entry.1).1 (AList.mem_keys.mpr (List.mem_map_of_mem at_entry))
  have at_start : name ∈ ev.transName tree leaf_vec_ node := by
    rw [transTensorName_same tables.1.2] at read
    exact mem_toOption.mpr read
  have from_tile (moved : 0 < dm_tile) : ev.MovesFromTile tree leaf_vec_ node := by
    rw [tile_eq] at moved
    obtain ⟨charge, member, apart⟩ := exists_of_totalAmount moved
    exact ⟨name, at_start, charge.tensor_name, AList.mem_keys.mp (own member),
      of_decide_eq_true apart⟩
  have from_trans (moved : 0 < dm_trans) : ev.MovesFromTrans tree leaf_vec_ node := by
    rw [trans_eq] at moved
    obtain ⟨charge, member, equal⟩ := exists_of_totalAmount moved
    exact ⟨name, at_start, of_decide_eq_true equal ▸ own member⟩
  apply enterTile_total first second
  · intro inner
    by_cases moves : ev.MovesFromTrans tree leaf_vec_ node ∨ ev.MovesFromTile tree leaf_vec_ node
    · obtain ⟨source, search, given⟩ := runnable.inputs node visited inner moves
      apply getInputLatency_total search
      rintro (trans | ⟨_, apart⟩)
      · exact given (Or.inl (from_trans trans))
      · exact given (Or.inr apart)
    · rw [not_or] at moves
      exact getInputLatency_idle (fun moved => moves.2 (from_tile moved))
        fun moved => moves.1 (from_trans moved)
  · intro inner
    obtain ⟨source, target, at_source, at_target, given⟩ := runnable.outputs node visited inner
    exact getOutputLatency_total visited.2.1 inner at_source at_target given output_tile

include prepared runnable in
theorem Evaluator.Runnable.rowOf_ne_nil (visited : ev.Visited .Tile node) : rowOf ev node ≠ [] := by
  apply tileRow_ne_nil
  · intro j c place before scope
    obtain ⟨sub, found⟩ := Option.isSome_iff_exists.mp (InitAnalysis.mem_positions.mp visited.1)
    rw [Evaluator.ori_node_of_get? found] at place before
    have here := child_of_place found place
    have kind : ev.get_type (j :: node) = .Scope := by
      rw [Evaluator.get_type, Evaluator.ori_node_of_get? here]
      exact scope
    have reached : ev.Reached (j :: node) := by
      refine ⟨fun _ => ?_, visited.2.2⟩
      rw [reachedChild, List.all_eq_true, Evaluator.ori_node_of_get? found]
      intro d member
      obtain ⟨k, bound, at_k⟩ := List.mem_take_iff_getElem.mp member
      exact decide_eq_true (before k (by omega) d (List.getElem?_eq_some_iff.mpr ⟨_, at_k⟩))
    have some := runnable.scopes (j :: node)
      ⟨InitAnalysis.mem_positions.mpr (Option.isSome_of_eq_some here), kind, reached⟩
    rwa [Evaluator.ori_node_of_get? here] at some
  · exact Or.inr (prepared.accepted.inner node visited.1 (Or.inl visited.2.1))

include prepared runnable init in
theorem Evaluator.Runnable.partsComplete (zero : ev.StartsAtZero) (positive : ev.PositiveBounds) :
    PartsComplete (tree.context ev leaf_vec_)
      (RunTables (tree.context ev leaf_vec_) (PerfAnalysis.initial tree).tally) where
  keeps := runTables_kept _ _
  loops := fun node found reached tile =>
    runnable.loops node ⟨InitAnalysis.mem_positions.mpr found, tile, reached⟩
  run := fun node _ _ _ => eachRuns zero positive node
  scopes := fun node found reached scope => scopeRow_ne_nil
    (runnable.scopes node ⟨InitAnalysis.mem_positions.mpr found, scope, reached⟩) 0
  rows := fun node found reached tile =>
    runnable.rowOf_ne_nil prepared ⟨InitAnalysis.mem_positions.mpr found, tile, reached⟩
  transfer := fun node loops t _ found reached trans => by
    have inside := InitAnalysis.mem_positions.mpr found
    obtain ⟨former, last, given⟩ := runnable.transfers node ⟨inside, trans, reached⟩
    have member : node ∈ leaf_vec_ := by
      rw [prepared.leaves]
      exact List.mem_filter.mpr ⟨inside, by simp [InitAnalysis.isLeaf, show ev.get_type node = .Trans from trans]⟩
    exact @transTally_total (tree.context ev leaf_vec_) former (walkAt _ node loops) t member last given
  enterTile := fun node loops t tables found reached tile =>
    runnable.enterTile init tables ⟨InitAnalysis.mem_positions.mpr found, tile, reached⟩ loops
  computeLatency := fun node found reached tile rows filled built => by
    obtain ⟨link, first, cores, linked⟩ :=
      runnable.blocks node ⟨InitAnalysis.mem_positions.mpr found, tile, reached⟩
    refine ⟨_, computeLatency_iff.mpr ⟨link, ⟨filled, first, cores, fun row member => ?_⟩, rfl⟩⟩
    rw [← List.length_map Latency.origin, built row member]
    exact linked

end

end TileExp.Analysis
