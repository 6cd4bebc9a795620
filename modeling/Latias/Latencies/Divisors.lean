import Latias.Latencies.Navigation
import Latias.Model.Interconnection

/-! What `PerfAnalysis` divides by: the fan-out of a Spatial Tile's link, and the bandwidths of the
    links between a Tile and its source, a Tile and its target, and two Trans. -/

namespace TileExp.Analysis

open Checked LoopNest

namespace Evaluator

variable (ev : Evaluator) (tree : EvaTree) (leaf_vec_ : List NodePtr) (node : NodePtr)

def transName : Option String :=
  (transTensorName (tree.context ev leaf_vec_) (PerfAnalysis.initial tree).tally node).toOption

def MovesFromTrans : Prop := ∃ name ∈ ev.transName tree leaf_vec_ node, name ∈ tree.input_tensors_ node

def MovesFromTile : Prop := ∃ name ∈ ev.transName tree leaf_vec_ node,
  ∃ other ∈ (tree.input_tensors_ node).keys, other ≠ name

/-- Wherever a run is, and whatever the node moves, nothing is divided by zero or by a bandwidth that
    is not declared. -/
structure DividesWell : Prop where
  fanouts : ∀ node ∈ Rose.postorder [] ev.root_, ev.get_type node = .Tile → ev.Reached node →
    ∀ rows, GoodDivisors (computeLatency ev node rows)
  inputs : ∀ node, ev.InnerTile node → ∀ dm_tile dm_trans,
    (0 < dm_tile → ev.MovesFromTile tree leaf_vec_ node) →
      (0 < dm_trans → ev.MovesFromTrans tree leaf_vec_ node) →
        GoodDivisors (getInputLatency ev node dm_tile dm_trans)
  outputs : ∀ node, ev.InnerTile node → ∀ data_movement,
    GoodDivisors (getOutputLatency ev node data_movement)
  transfers : ∀ node ∈ Rose.postorder [] ev.root_, ev.get_type node = .Trans → ev.Reached node →
    ∀ w t, w.current_node_ = node →
      GoodDivisors (PerfAnalysis.transTally (tree.context ev leaf_vec_) w t)

variable (archTopo : ArchTopo) (config_ : List Connection)

def Carries (connection : String) : Prop :=
  ∃ config ∈ Connection.declared config_ connection, config.bandwidth ≠ some 0

instance (connection : String) : Decidable (Carries config_ connection) :=
  inferInstanceAs (Decidable (∃ config ∈ Connection.declared config_ connection, _))

/-- The links that a mapping needs: one that does not fan in below a Spatial Tile, and one that
    carries something from the source of a Tile's inputs, to the target of its outputs and between
    two Trans. -/
structure LinksGiven : Prop where
  fanouts : ∀ node ∈ Rose.postorder [] ev.root_, ev.get_type node = .Tile → ev.Reached node →
    isTemporal (ev.ori_node_ node) = false → ev.get_type (0 :: ev.linkHolder node) ≠ .Trans →
      ∀ config ∈ Connection.declared config_
          (ev.target_level node ++ "2" ++ ev.target_level (0 :: ev.linkHolder node)),
        (config.fans archTopo).2 ≤ (config.fans archTopo).1
  inputs : ∀ node ∈ Rose.postorder [] ev.root_, ev.InnerTile node →
    ∀ source ∈ (findSource ev node (findCurrentNodePosition node)).toOption,
      ev.MovesFromTrans tree leaf_vec_ node ∨
          ev.MovesFromTile tree leaf_vec_ node ∧ ev.target_level node ≠ source.1 →
        Carries config_ (source.1 ++ "2" ++ ev.target_level node)
  outputs : ∀ node ∈ Rose.postorder [] ev.root_, ev.InnerTile node →
    ∀ source ∈ (outputSource ev node).toOption, ∀ target ∈ (findTarget ev node).toOption,
      Carries config_ (source ++ "2" ++ target.1)
  transfers : ∀ node ∈ Rose.postorder [] ev.root_, ev.get_type node = .Trans → ev.Reached node →
    ∀ former ∈ (leaf_vec_.take (leaf_vec_.idxOf node)).getLast?, ev.get_type former = .Trans →
      Carries config_ (ev.target_level former ++ "2" ++ ev.target_level node)

end Evaluator

variable {ev : Evaluator} {ctx : PerfContext} {node : NodePtr} {tree : EvaTree}
  {leaf_vec_ : List NodePtr} {archTopo : ArchTopo} {config_ : List Connection} {connection : String}

theorem allows_goodDivisors :
    Allows fun fault => fault ≠ .divisionByZero ∧ fault ≠ .uninitialized := by
  constructor <;> simp

def HasBandwidth (ev : Evaluator) (connection : String) : Prop :=
  ∃ link, ev.intercon_.intercon_attri_map_ connection = some link ∧ link.bandwidth_ ≠ 0

theorem quotient_good_iff {α : Type} (amount : Nat → Int) (f : Int → α) :
    GoodDivisors (do
      let bandwidth ← ev.intercon_.bandwidth_ connection
      let quotient ← divide (amount bandwidth) bandwidth
      .ok (f quotient)) ↔ HasBandwidth ev connection := by
  constructor
  · intro good
    cases link : ev.intercon_.intercon_attri_map_ connection with
    | none =>
      rw [InterCon.bandwidth_, link] at good
      exact absurd rfl (good.of_error .uninitialized rfl).2
    | some found =>
      refine ⟨found, link, fun zero => ?_⟩
      rw [InterCon.bandwidth_, link] at good
      have stopped : divide (amount found.bandwidth_) found.bandwidth_ = .error .divisionByZero :=
        if_pos zero
      simp only [ok_bind, stopped, error_bind] at good
      exact absurd rfl (good.of_error .divisionByZero rfl).1
  · intro link
    have divides : ev.Divides (fun fault => fault ≠ .divisionByZero ∧ fault ≠ .uninitialized)
        connection := Or.inl link
    apply divides.bandwidth_.bind
    intro bandwidth read
    apply (divides.quotient read _).bind
    intro quotient _
    exact stops_ok _

theorem transfer_good_iff (amount : Int) :
    GoodDivisors (do
      let bandwidth ← ev.intercon_.bandwidth_ connection
      transferLatency ev amount bandwidth) ↔ HasBandwidth ev connection :=
  quotient_good_iff (fun bandwidth => amount + bandwidth - 1) ev.toInt

theorem hasBandwidth_iff
    (parsed : ParseInterConnection archTopo config_ = .ok (ev.intercon_, ev.arch_topo_)) (connection : String) :
    HasBandwidth ev connection ↔ Evaluator.Carries config_ connection := by
  have found := Connection.lookup_parsed parsed connection
  unfold HasBandwidth Evaluator.Carries
  cases given : Connection.declared config_ connection with
  | none =>
    rw [given] at found
    simp [found]
  | some config =>
    rw [given] at found
    obtain ⟨node, link, at_key⟩ := found
    have bandwidth := (Connection.parse_eq_ok link).1
    simp [at_key, bandwidth]

/-! Fan-outs. -/

theorem computeLatency_good_iff :
    (∀ rows, GoodDivisors (computeLatency ev node rows)) ↔
      (isTemporal (ev.ori_node_ node) = false →
        ∀ link, getInterConNode ev node 0 = .ok link → link.fanout_ ≠ 0) := by
  constructor
  · intro good spatial link found zero
    obtain ⟨child, first, _⟩ := bind_eq_ok.mp found
    have stopped : computeLatency ev node [[]] = .error .divisionByZero := by
      simp [computeLatency, tileexpAssert, first, found, spatial, zero]
    exact absurd rfl ((good [[]]).of_error .divisionByZero stopped).1
  · intro wide rows
    apply computeLatency_stops allows_goodDivisors
    intro link found spatial zero
    exact absurd zero (wide spatial link found)

theorem getInterConNode_first (accepted : ev.Accepted) (inside : node ∈ Rose.postorder [] ev.root_)
    (tile : ev.get_type node = .Tile) (link : InterConNode) :
    getInterConNode ev node 0 = .ok link ↔ ev.get_type (0 :: ev.linkHolder node) ≠ .Trans ∧
      ev.intercon_.intercon_attri_map_
        (ev.target_level node ++ "2" ++ ev.target_level (0 :: ev.linkHolder node)) = some link := by
  have some := List.length_pos_of_ne_nil (linkHolder_children accepted inside tile).2.2
  have here : ev.child (ev.linkHolder node) 0 = .ok (0 :: ev.linkHolder node) := if_pos some
  rw [getInterConNode_eq accepted inside tile, here, ok_bind]
  by_cases trans : ev.get_type (0 :: ev.linkHolder node) = .Trans
  · simp [trans]
  · simp only [trans, if_false, ok_bind, ne_eq, not_false_eq_true, true_and]
    cases ev.intercon_.intercon_attri_map_
      (ev.target_level node ++ "2" ++ ev.target_level (0 :: ev.linkHolder node)) with
    | none => simp
    | some found => simp

theorem fanouts_iff (accepted : ev.Accepted)
    (parsed : ParseInterConnection archTopo config_ = .ok (ev.intercon_, ev.arch_topo_))
    (inside : node ∈ Rose.postorder [] ev.root_) (tile : ev.get_type node = .Tile) :
    (∀ rows, GoodDivisors (computeLatency ev node rows)) ↔
      (isTemporal (ev.ori_node_ node) = false → ev.get_type (0 :: ev.linkHolder node) ≠ .Trans →
        ∀ config ∈ Connection.declared config_
            (ev.target_level node ++ "2" ++ ev.target_level (0 :: ev.linkHolder node)),
          (config.fans archTopo).2 ≤ (config.fans archTopo).1) := by
  have found := Connection.lookup_parsed parsed
    (ev.target_level node ++ "2" ++ ev.target_level (0 :: ev.linkHolder node))
  rw [computeLatency_good_iff]
  simp only [getInterConNode_first accepted inside tile]
  refine imp_congr_right fun spatial => ?_
  cases given : Connection.declared config_
      (ev.target_level node ++ "2" ++ ev.target_level (0 :: ev.linkHolder node)) with
  | none =>
    rw [given] at found
    simp [found]
  | some config =>
    rw [given] at found
    obtain ⟨link, parse, at_key⟩ := found
    have fans := (Connection.parse_eq_ok parse).2
    constructor
    · intro wide other config' same
      cases same
      have nonzero := wide link ⟨other, at_key⟩
      omega
    · intro wide link' both zero
      rw [at_key] at both
      cases both.2
      have bound := wide both.1 config rfl
      omega

/-! Inputs and outputs. -/

theorem inputs_iff (tile : ev.get_type node = .Tile) (inner : node ≠ [])
    {from_tile from_trans : Prop} :
    (∀ dm_tile dm_trans, (0 < dm_tile → from_tile) → (0 < dm_trans → from_trans) →
      GoodDivisors (getInputLatency ev node dm_tile dm_trans)) ↔
      ∀ source ∈ (findSource ev node (findCurrentNodePosition node)).toOption,
        from_trans ∨ from_tile ∧ ev.target_level node ≠ source.1 →
          HasBandwidth ev (source.1 ++ "2" ++ ev.target_level node) := by
  have parent := parent_of_inner inner
  have kind : ev.get_type node ≠ .Scope := by
    rw [tile]
    exact NodeType.noConfusion
  have parts (dm_tile dm_trans : Int) : getInputLatency ev node dm_tile dm_trans = (do
      let trans_latency ← transInputLatency ev node dm_trans
      let tile_latency ← tileInputLatency ev node dm_tile
      .ok (ev.toInt (trans_latency + tile_latency))) := if_neg kind
  constructor
  · intro good source found needed
    have search := mem_toOption.mp found
    rcases needed with trans | ⟨here, apart⟩
    · have moved := good 0 1 (by omega) (fun _ => trans)
      rw [parts] at moved
      have first := moved.first
      rw [transInputLatency, if_pos ⟨by omega, parent⟩, search, ok_bind] at first
      exact (transfer_good_iff 1).mp first
    · have moved := good 1 0 (fun _ => here) (by omega)
      have none : transInputLatency ev node 0 = .ok 0 := if_neg (by omega)
      rw [parts, none, ok_bind] at moved
      have second := moved.first
      rw [tileInputLatency, if_pos ⟨by omega, parent⟩, search, ok_bind, if_neg apart] at second
      exact (transfer_good_iff 1).mp second
  · intro links dm_tile dm_trans of_tile of_trans
    apply getInputLatency_stops rfl (findSource_stops allows_goodDivisors (by simp) node _)
    · intro moved source found
      exact Or.inl (links source (mem_toOption.mpr found) (Or.inl (of_trans moved)))
    · intro moved source found apart
      exact Or.inl (links source (mem_toOption.mpr found) (Or.inr ⟨of_tile moved, apart⟩))

theorem getOutputLatency_inner (tile : ev.get_type node = .Tile) (inner : node ≠ [])
    (data_movement : Int) : getOutputLatency ev node data_movement = (do
      let source_level ← outputSource ev node
      let target_level ← findTarget ev node
      let bandwidth ← ev.intercon_.bandwidth_ (source_level ++ "2" ++ target_level.1)
      transferLatency ev data_movement bandwidth) := by
  have kind : ¬ (ev.get_type node = .Scope ∨ ev.get_type node = .Trans) := by
    rw [tile]
    simp
  rw [getOutputLatency_eq, if_neg kind]
  simp only [if_neg (parent_of_inner inner)]

theorem outputs_iff (tile : ev.get_type node = .Tile) (inner : node ≠ []) :
    (∀ data_movement, GoodDivisors (getOutputLatency ev node data_movement)) ↔
      ∀ source ∈ (outputSource ev node).toOption, ∀ target ∈ (findTarget ev node).toOption,
        HasBandwidth ev (source ++ "2" ++ target.1) := by
  simp only [getOutputLatency_inner tile inner]
  constructor
  · intro good source at_source target at_target
    have moved := good 0
    rw [mem_toOption.mp at_source, ok_bind, mem_toOption.mp at_target, ok_bind] at moved
    exact (transfer_good_iff 0).mp moved
  · intro links data_movement
    apply (outputSource_stops allows_goodDivisors node).bind
    intro source at_source
    apply (findTarget_stops allows_goodDivisors (by simp) node).bind
    intro target at_target
    exact (transfer_good_iff data_movement).mpr
      (links source (mem_toOption.mpr at_source) target (mem_toOption.mpr at_target))

/-! Between two Trans. -/

theorem transfers_iff {w : Walk} (member : w.current_node_ ∈ ctx.leaf_vec_) :
    (∀ t, GoodDivisors (PerfAnalysis.transTally ctx w t)) ↔
      ∀ former ∈ (ctx.leaf_vec_.take (ctx.leaf_vec_.idxOf w.current_node_)).getLast?,
        ctx.ev.get_type former = .Trans →
          HasBandwidth ctx.ev
            (ctx.ev.target_level former ++ "2" ++ ctx.ev.target_level w.current_node_) := by
  have bound := List.idxOf_lt_length_of_mem member
  simp only [PerfAnalysis.transTally]
  cases place : ctx.leaf_vec_.idxOf w.current_node_ with
  | zero =>
    simp only [List.take_zero, List.getLast?_nil, Option.mem_def, reduceCtorEq, false_implies,
      implies_true, iff_true]
    exact fun _ => stops_error allows_goodDivisors.outOfRange
  | succ current_idx =>
    obtain ⟨former, here⟩ : ∃ former, ctx.leaf_vec_[current_idx]? = some former :=
      ⟨_, List.getElem?_eq_getElem (by omega)⟩
    have last : (ctx.leaf_vec_.take (current_idx + 1)).getLast? = ctx.leaf_vec_[current_idx]? := by
      rw [List.getLast?_take, if_neg (Nat.succ_ne_zero _), Nat.add_sub_cancel, here]
      rfl
    simp only [last, here]
    by_cases trans : ctx.ev.get_type former = .Trans
    · simp only [trans, if_true, quotient_good_iff, Option.mem_def, Option.some_inj, forall_eq',
        true_implies]
      exact ⟨fun good => good (PerfAnalysis.initial (EvaTree.fresh ctx.ev)).tally, fun link _ => link⟩
    · simp only [trans, if_false, Option.mem_def, Option.some_inj, forall_eq', false_implies, iff_true]
      exact fun _ => stops_ok _

theorem dividesWell_iff (prepared : ev.Prepared tree leaf_vec_)
    (parsed : ParseInterConnection archTopo config_ = .ok (ev.intercon_, ev.arch_topo_)) :
    ev.DividesWell tree leaf_vec_ ↔ ev.LinksGiven tree leaf_vec_ archTopo config_ := by
  have accepted := prepared.accepted
  have carries := hasBandwidth_iff parsed
  have leaf {node : NodePtr} (inside : node ∈ Rose.postorder [] ev.root_)
      (trans : ev.get_type node = .Trans) : node ∈ leaf_vec_ := by
    rw [prepared.leaves]
    exact List.mem_filter.mpr ⟨inside, by simp [InitAnalysis.isLeaf, trans]⟩
  constructor
  · intro well
    constructor
    · intro node inside tile reached
      exact (fanouts_iff accepted parsed inside tile).mp (well.fanouts node inside tile reached)
    · intro node _ inner source found needed
      exact (carries _).mp
        ((inputs_iff inner.2.2.1 inner.2.1).mp (well.inputs node inner) source found needed)
    · intro node _ inner source at_source target at_target
      exact (carries _).mp ((outputs_iff inner.2.2.1 inner.2.1).mp (well.outputs node inner)
        source at_source target at_target)
    · intro node inside trans reached former last kind
      have good := @transfers_iff (tree.context ev leaf_vec_) (walkAt (tree.context ev leaf_vec_) node [])
        (leaf inside trans)
      exact (carries _).mp (good.mp (fun t => well.transfers node inside trans reached _ t rfl)
        former last kind)
  · intro links
    constructor
    · intro node inside tile reached
      exact (fanouts_iff accepted parsed inside tile).mpr (links.fanouts node inside tile reached)
    · intro node inner
      apply (inputs_iff inner.2.2.1 inner.2.1).mpr
      intro source found needed
      exact (carries _).mpr (links.inputs node inner.1 inner source found needed)
    · intro node inner
      apply (outputs_iff inner.2.2.1 inner.2.1).mpr
      intro source at_source target at_target
      exact (carries _).mpr (links.outputs node inner.1 inner source at_source target at_target)
    · intro node inside trans reached w t here
      subst here
      apply (@transfers_iff (tree.context ev leaf_vec_) w (leaf inside trans)).mpr
      intro former last kind
      exact (carries _).mpr (links.transfers _ inside trans reached former last kind)

/-! Runs. -/

theorem exists_of_totalAmount {cs : List Charge} {q : Charge → Bool}
    (moved : 0 < totalAmount (cs.filter q)) : ∃ charge ∈ cs, q charge = true := by
  by_contra none
  have empty : cs.filter q = [] := by
    apply List.filter_eq_nil_iff.mpr
    intro charge member matched
    exact none ⟨charge, member, matched⟩
  rw [empty] at moved
  cases moved

def TablesOf (ctx : PerfContext) (t₀ t : Tally) : Prop :=
  NoNewTensors t₀ t ∧ SameTransOutputs ctx t₀ t

theorem tablesOf_kept (ctx : PerfContext) (t₀ : Tally) :
    Parts ctx fun t t' => TablesOf ctx t₀ t → TablesOf ctx t₀ t' := by
  have both := (noNewTensors_kept ctx).parts.and (callsLogged_parts ctx)
  apply both.invariant
  intro t t' kept held
  exact ⟨(noNewTensors_kept ctx).trans held.1 kept.1,
    fun ptr trans => (kept.2.1 ptr trans).trans (held.2 ptr trans)⟩

theorem run_divides (prepared : ev.Prepared tree leaf_vec_) (well : ev.DividesWell tree leaf_vec_) :
    GoodDivisors (PerfAnalysis.run ev tree leaf_vec_) := by
  have allows := allows_goodDivisors
  have start : TablesOf (tree.context ev leaf_vec_) (PerfAnalysis.initial tree).tally
      (PerfAnalysis.initial tree).tally :=
    ⟨fun _ _ => ⟨id, id⟩, fun _ _ => rfl⟩
  refine PerfAnalysis.run_stops prepared.idle ⟨allows, tablesOf_kept _ _, ?_, ?_, ?_⟩ start
  · intro node loops t _ found reached trans
    exact well.transfers node (InitAnalysis.mem_positions.mpr found) trans reached _ t rfl
  · intro node loops t tables found reached tile
    have inner (below : node ≠ []) : ev.InnerTile node :=
      ⟨InitAnalysis.mem_positions.mpr found, below, tile, reached⟩
    apply enterTile_stops allows
    · intro ins charged below
      obtain ⟨t', dm_tile, dm_trans⟩ := ins
      obtain ⟨name, cs, named, call, rfl, rfl, _⟩ := addCurrentTensor_input charged
      have at_start : name ∈ ev.transName tree leaf_vec_ node := by
        rw [transTensorName_same tables.2] at named
        exact mem_toOption.mpr named
      have own {charge : Charge} (member : charge ∈ cs) :
          charge.tensor_name ∈ tree.input_tensors_ node := by
        obtain ⟨entry, at_entry, made⟩ := mem_of_mapM call member
        obtain ⟨after, _, made⟩ := bind_eq_ok.mp made
        obtain ⟨amount, _, result⟩ := bind_eq_ok.mp made
        cases result
        exact (tables.1 node entry.1).1 (AList.mem_keys.mpr (List.mem_map_of_mem at_entry))
      refine well.inputs node (inner below) _ _ (fun moved => ?_) (fun moved => ?_)
      · obtain ⟨charge, member, apart⟩ := exists_of_totalAmount moved
        exact ⟨name, at_start, charge.tensor_name, AList.mem_keys.mp (own member),
          of_decide_eq_true apart⟩
      · obtain ⟨charge, member, same⟩ := exists_of_totalAmount moved
        exact ⟨name, at_start, of_decide_eq_true same ▸ own member⟩
    · intro data_movement below
      exact well.outputs node (inner below) data_movement
  · intro node t _ found reached tile
    exact finishTile_stops (well.fanouts node (InitAnalysis.mem_positions.mpr found) tile reached) t

theorem parse_divides (config_ : List Connection)
    (each : ∀ config ∈ config_, GoodDivisors (parseConnection archTopo config)) :
    GoodDivisors (ParseInterConnection archTopo config_) := by
  refine stops_foldlM (fun s => s.2.level_num = archTopo.level_num) ?_ ?_ _ rfl
  · intro config member s same
    have here := each config member
    rw [← Connection.parse_congr same config] at here
    apply here.bind
    intro node _
    exact stops_ok _
  · intro config _ s s' same step
    obtain ⟨node, _, result⟩ := bind_eq_ok.mp step
    cases result
    exact (Connection.level_num_touched _ config).trans same

/-- Parsing divides well if and only if every connection of a known type has a bandwidth and both of
    its levels or neither; evaluating does if and only if the links that the mapping needs are given,
    and then every run of `PerfAnalysis` does. -/
theorem divides_well_iff (archTopo : ArchTopo) (config_ : List Connection) :
    ((∀ config ∈ config_, GoodDivisors (parseConnection archTopo config)) ↔
      ∀ config ∈ config_, config.TypeKnown → config.bandwidth.isSome ∧ config.LevelsAgree archTopo) ∧
    ((∀ config ∈ config_, config.TypeKnown →
        config.bandwidth.isSome ∧ config.LevelsAgree archTopo) →
      GoodDivisors (ParseInterConnection archTopo config_)) ∧
    ∀ (ev : Evaluator) tree leaf_vec_,
      ParseInterConnection archTopo config_ = .ok (ev.intercon_, ev.arch_topo_) →
      ev.prepare = .ok (tree, leaf_vec_) →
        (ev.DividesWell tree leaf_vec_ ↔ ev.LinksGiven tree leaf_vec_ archTopo config_) ∧
          (ev.LinksGiven tree leaf_vec_ archTopo config_ →
            GoodDivisors (PerfAnalysis.run ev tree leaf_vec_)) := by
  have each : (∀ config ∈ config_, GoodDivisors (parseConnection archTopo config)) ↔
      ∀ config ∈ config_, config.TypeKnown →
        config.bandwidth.isSome ∧ config.LevelsAgree archTopo :=
    forall₂_congr fun config _ => Connection.parse_good_iff
  refine ⟨each, fun given => parse_divides config_ (each.mpr given), ?_⟩
  intro ev tree leaf_vec_ parsed ready
  have prepared := Evaluator.prepare_eq_ok ready
  have whole := dividesWell_iff prepared parsed
  exact ⟨whole, fun links => run_divides prepared (whole.mpr links)⟩

def linked (archTopo : ArchTopo) (config_ : List Connection) (ev : Evaluator) : Evaluator :=
  match ParseInterConnection archTopo config_ with
  | .ok (intercon_, arch_topo_) => { ev with intercon_, arch_topo_ }
  | .error _ => ev

theorem linked_parsed {archTopo : ArchTopo} {config_ : List Connection} (ev : Evaluator)
    (parses : (ParseInterConnection archTopo config_).isOk = true) :
    ParseInterConnection archTopo config_ =
      .ok ((linked archTopo config_ ev).intercon_, (linked archTopo config_ ev).arch_topo_) := by
  obtain ⟨⟨intercon_, arch_topo_⟩, parsed⟩ := exists_of_isOk parses
  rw [linked, parsed]

def threeLevels (main l1 : Nat) : ArchTopo where
  archTopo_map_ := fun level =>
    [("Main", ⟨main, 1⟩), ("L1", ⟨l1, 1⟩), ("Cube", ⟨l1, 1⟩)].lookup level

def threeLinks : List Connection :=
  [⟨"Main", "L1", some 1, "BC"⟩, ⟨"L1", "Main", some 1, "BC"⟩, ⟨"L1", "Cube", some 1, "HD"⟩]

def fannedTiles : Evaluator :=
  Config.evaluator
    (Config.workloads [("copy", ⟨["A"], "B"⟩)] [("M", 4)] [("A", ["M"]), ("B", ["M"])]) 1 []
    (Config.tile .Spatial "Main" [Config.loop "M" 2 2]
      [Config.tile .Temporal "L1" [Config.loop "M" 2 2]
        [Config.op "Cube" "copy" [Config.loop "M" 1 1]]])

def fanned (main l1 : Nat) : Evaluator := linked (threeLevels main l1) threeLinks fannedTiles

theorem divides_well_fanned : ∃ tree leaf_vec_, (fanned 1 2).prepare = .ok (tree, leaf_vec_) ∧
    GoodDivisors (ParseInterConnection (threeLevels 1 2) threeLinks) ∧
    (fanned 1 2).DividesWell tree leaf_vec_ ∧
    GoodDivisors (PerfAnalysis.run (fanned 1 2) tree leaf_vec_) := by
  obtain ⟨⟨tree, leaf_vec_⟩, ready⟩ := exists_of_isOk
    (show (fanned 1 2).prepare.isOk = true by decide +kernel)
  have parsed : ParseInterConnection (threeLevels 1 2) threeLinks =
      .ok ((fanned 1 2).intercon_, (fanned 1 2).arch_topo_) :=
    linked_parsed fannedTiles (by decide +kernel)
  obtain ⟨_, parses, evaluates⟩ := divides_well_iff (threeLevels 1 2) threeLinks
  obtain ⟨whole, run⟩ := evaluates (fanned 1 2) tree leaf_vec_ parsed ready
  have links : (fanned 1 2).LinksGiven tree leaf_vec_ (threeLevels 1 2) threeLinks := by
    constructor
    · decide +kernel
    · intro node inside inner source found _
      have carried : ∀ node ∈ Rose.postorder [] (fanned 1 2).root_, (fanned 1 2).InnerTile node →
          ∀ source ∈ (findSource (fanned 1 2) node (findCurrentNodePosition node)).toOption,
            Evaluator.Carries threeLinks (source.1 ++ "2" ++ (fanned 1 2).target_level node) := by
        decide +kernel
      exact carried node inside inner source found
    · decide +kernel
    · intro node inside trans
      have none : ∀ node ∈ Rose.postorder [] (fanned 1 2).root_,
          (fanned 1 2).get_type node ≠ .Trans := by decide +kernel
      exact absurd trans (none node inside)
  exact ⟨tree, leaf_vec_, ready, parses (by decide +kernel), whole.mpr links, run links⟩

/-- Two instances of `Main` over one of `L1`: the link fans in, and the Spatial Tile divides by its
    fan-out. -/
theorem divides_by_fan_in : ∃ tree leaf_vec_,
    ParseInterConnection (threeLevels 2 1) threeLinks =
      .ok ((fanned 2 1).intercon_, (fanned 2 1).arch_topo_) ∧
    (fanned 2 1).prepare = .ok (tree, leaf_vec_) ∧
    PerfAnalysis.run (fanned 2 1) tree leaf_vec_ = .error .divisionByZero ∧
    ¬ GoodDivisors (PerfAnalysis.run (fanned 2 1) tree leaf_vec_) := by
  obtain ⟨⟨tree, leaf_vec_⟩, ready⟩ := exists_of_isOk
    (show (fanned 2 1).prepare.isOk = true by decide +kernel)
  have computed : ((fanned 2 1).prepare >>= fun passes =>
      (PerfAnalysis.run (fanned 2 1) passes.1 passes.2).map fun _ => ()) =
        .error .divisionByZero := by
    decide +kernel
  have stopped : PerfAnalysis.run (fanned 2 1) tree leaf_vec_ = .error .divisionByZero := by
    rw [ready, ok_bind] at computed
    cases run : PerfAnalysis.run (fanned 2 1) tree leaf_vec_ with
    | error fault =>
      rw [run] at computed
      cases computed
      rfl
    | ok s =>
      rw [run] at computed
      cases computed
  refine ⟨tree, leaf_vec_, linked_parsed fannedTiles (by decide +kernel), ready, stopped, fun good => ?_⟩
  exact (good.of_error _ stopped).1 rfl

end TileExp.Analysis
