import Latias.Application.Main
import Latias.Latencies.Progress
import Latias.Mapping.TreeRoundTrip

/-! `main` on a configuration that writes what is meant. -/

namespace TileExp.Application

open Checked Analysis Mapping TileExp.Symbol

namespace Configuration

variable (config : Configuration)

def LevelName2IdxMap (level : String) : Option Nat :=
  (LevelConfig.declared config.arch level).map Prod.snd

def levels : ArchTopo where
  archTopo_map_ level := (LevelConfig.declared config.arch level).bind fun entry =>
    entry.1.parse.toOption.map LevelRecord.toLevelAttri

/-- The levels after the links have been read, which makes entries of the levels they name. -/
def touched : ArchTopo :=
  config.connection.foldl (fun archTopo config => config.touched archTopo) config.levels

def links : InterCon where
  intercon_attri_map_ key := (Connection.declared config.connection key).bind fun connection =>
    (parseConnection config.levels connection).toOption

end Configuration

namespace Platform

variable (platform : Platform) (config : Configuration) (workloads : TileExp.Workloads)
  (tree : Rose WrittenNode)

def configGlobals : Globals := platform.globals config.macros config.LevelName2IdxMap workloads

def meant (table : SymbolTable) : Evaluator :=
  platform.evaluator workloads config.touched config.links
    (tree.map fun node => node.spec.node (platform.configGlobals config workloads) table)

/-- The configuration writes levels of known types, connections between levels that have instances,
    problems that are accepted, and a mapping over all these. -/
structure Writes : Prop where
  levels : ∀ level ∈ config.arch,
    level.level_num.isSome ∧ (SetLevelType level.level_name).isOk ∧ level.attributes.isSome
  links : ∀ connection ∈ config.connection,
    connection.TypeKnown ∧ connection.bandwidth.isSome ∧ connection.LevelsAgree config.levels
  problem : Problem.ParseWorkloads config.problem = .ok workloads
  mapping : config.mapping = tree.map WrittenNode.config
  valid : ∀ node ∈ flatten tree, node.spec.Valid (platform.configGlobals config workloads)
  declared : OpsDeclared [] ((flatten tree).map WrittenNode.spec)

end Platform

variable {platform : Platform} {config : Configuration} {workloads : TileExp.Workloads}
  {tree : Rose WrittenNode} {archTopo_ : ArchLevels}

theorem topology_parsed (parsed : ParseArchTopology config.arch = .ok archTopo_) :
    archTopo_.archTopoName2Idx_map_ = config.LevelName2IdxMap ∧ archTopo_.toArchTopo = config.levels := by
  have levels := LevelConfig.parsed_levels parsed
  constructor
  · funext level
    exact levels.places level
  · have same (level : String) : (archTopo_.archTopo_map_ level).map LevelRecord.toLevelAttri =
        config.levels.archTopo_map_ level := by
      have record := levels.records level
      simp only [Configuration.levels]
      cases found : LevelConfig.declared config.arch level with
      | none =>
        rw [found] at record
        rw [record]
        rfl
      | some entry =>
        rw [found] at record
        obtain ⟨levelAttri_, own, record⟩ := record
        rw [record, Option.bind_some, own]
        rfl
    exact congrArg ArchTopo.mk (funext same)

theorem links_meant {intercon : InterCon} {touched : ArchTopo}
    (parsed : ParseInterConnection config.levels config.connection = .ok (intercon, touched)) :
    intercon = config.links := by
  have same (key : String) : intercon.intercon_attri_map_ key = config.links.intercon_attri_map_ key := by
    have link := Connection.lookup_parsed parsed key
    simp only [Configuration.links]
    cases found : Connection.declared config.connection key with
    | none =>
      rw [found] at link
      exact link
    | some connection =>
      rw [found] at link
      obtain ⟨node, own, link⟩ := link
      rw [link, Option.bind_some, own]
      rfl
  exact congrArg InterCon.mk (funext same)

theorem configure_written (writes : platform.Writes config workloads tree) :
    ∃ table, RoundTrip (platform.configGlobals config workloads) .empty tree table ∧
      platform.configure config = .ok (platform.meant config workloads tree table) := by
  obtain ⟨archTopo_, topology⟩ := LevelConfig.topology_completes_iff.mpr fun level member =>
    LevelConfig.parse_completes_iff.mpr (writes.levels level member)
  obtain ⟨places, records⟩ := topology_parsed topology
  obtain ⟨intercon, parsed⟩ := Connection.links_parsed fun connection member =>
    Connection.parse_completes_iff.mpr (writes.links connection member)
  obtain ⟨table, _, trip⟩ := mapping_round_trip (platform.configGlobals config workloads) .empty
    SymbolTable.consistent_empty tree writes.valid writes.declared
  refine ⟨table, trip, ?_⟩
  have read := trip.parsed
  rw [← writes.mapping] at read
  rw [Platform.configure, topology, ok_bind, records, parsed, ok_bind]
  dsimp only
  rw [writes.problem, ok_bind, places]
  have given : RecursiveParse (platform.globals config.macros config.LevelName2IdxMap workloads) .empty
      config.mapping = .ok (table, _) := read
  rw [given, ok_bind, links_meant parsed]
  rfl

/-! Configurations without variables. -/

section Numbers

variable {g : Globals} {table table' : SymbolTable} {spec : NodeSpec}

theorem loop_of_numbers {loop : LoopSpec} (none : loop.symbols = []) (spacetime : Dimension) :
    loop.loop g spacetime table = loop.loop g spacetime table' := by
  have same (bound : Bound) (numbers : bound.symbols = []) : bound.value table = bound.value table' := by
    cases bound with
    | number n => rfl
    | symbol name => cases numbers
  obtain ⟨full, residual⟩ := List.append_eq_nil_iff.mp none
  have bounds : loop.bounds table = loop.bounds table' := by
    rw [LoopSpec.bounds, LoopSpec.bounds, same _ full]
    cases given : loop.residual_end with
    | none => rw [Option.getD_none, same _ full]
    | some bound =>
      rw [given] at residual
      rw [Option.getD_some, same _ residual]
  rw [LoopSpec.loop, LoopSpec.loop, bounds]

theorem node_of_numbers (none : spec.symbols = []) : spec.node g table = spec.node g table' := by
  have each : ∀ loop ∈ spec.loops, loop.symbols = [] := List.flatMap_eq_nil_iff.mp none
  have nest (loops : List LoopSpec) (inside : loops ⊆ spec.loops) (spacetime : Dimension) :
      loops.map (fun loop => loop.loop g spacetime table) =
        loops.map fun loop => loop.loop g spacetime table' :=
    List.map_congr_left fun loop member => loop_of_numbers (each loop (inside member)) spacetime
  cases spec with
  | Tile head tile =>
    cases tile with
    | Temporal loops =>
      simp only [NodeSpec.node, TileSpec.node, TileSpec.loopnests_]
      rw [nest loops (List.Subset.refl loops)]
    | Spatial spaceY spaceX =>
      simp only [NodeSpec.node, TileSpec.node, TileSpec.loopnests_]
      rw [nest spaceY (List.subset_append_left spaceY spaceX),
        nest spaceX (List.subset_append_right spaceY spaceX)]
  | Op head op_name_ loops =>
    simp only [NodeSpec.node, Head.opNode]
    rw [nest loops (List.Subset.refl loops)]
  | Scope target tag type => rfl
  | Trans head trans_name_ => rfl

theorem exists_of_descriptor {loop : Descriptor}
    (member : loop ∈ (platform.info (spec.node g table)).kind.loopnests_) :
    ∃ meant ∈ spec.loops, ∃ spacetime, (meant.loop g spacetime table).toDescriptor = loop := by
  cases spec with
  | Tile head tile =>
    obtain ⟨made, inside, rfl⟩ := List.mem_map.mp member
    cases tile with
    | Temporal loops =>
      obtain ⟨meant, own, rfl⟩ := List.mem_map.mp inside
      exact ⟨meant, own, .Time, rfl⟩
    | Spatial spaceY spaceX =>
      rcases List.mem_append.mp inside with inside | inside
      · obtain ⟨meant, own, rfl⟩ := List.mem_map.mp inside
        exact ⟨meant, List.mem_append_left spaceX own, .SpaceY, rfl⟩
      · obtain ⟨meant, own, rfl⟩ := List.mem_map.mp inside
        exact ⟨meant, List.mem_append_right spaceY own, .SpaceX, rfl⟩
  | Op head op_name_ loops =>
    obtain ⟨made, inside, rfl⟩ := List.mem_map.mp member
    obtain ⟨meant, own, rfl⟩ := List.mem_map.mp inside
    exact ⟨meant, own, .Time, rfl⟩
  | Scope target tag type => cases member
  | Trans head trans_name_ => cases member

theorem positive_of_numbers {loop : LoopSpec} (none : loop.symbols = []) :
    1 ≤ (loop.bounds table).1 ∧ 1 ≤ (loop.bounds table).2 := by
  have number (bound : Bound) (numbers : bound.symbols = []) : 1 ≤ bound.value table := by
    cases bound with
    | number n => exact Int.ofNat_le.mpr n.2.1
    | symbol name => cases numbers
  obtain ⟨full, residual⟩ := List.append_eq_nil_iff.mp none
  refine ⟨number _ full, ?_⟩
  cases given : loop.residual_end with
  | none =>
    simp only [LoopSpec.bounds, given]
    exact number _ full
  | some bound =>
    rw [given] at residual
    simp only [LoopSpec.bounds, given]
    exact number bound residual

end Numbers

section Flatten

variable {α : Type} {t u c : Rose α} {cs : List (Rose α)} {p : Rose.Address}

theorem flatten_subset_flattenAll (member : c ∈ cs) : flatten c ⊆ flattenAll cs := by
  induction cs with
  | nil => cases member
  | cons d cs ih =>
    rw [flattenAll]
    rcases List.mem_cons.mp member with rfl | later
    · exact List.subset_append_left _ _
    · exact List.Subset.trans (ih later) (List.subset_append_right _ _)

theorem flatten_subset (found : t.get? p = some u) : flatten u ⊆ flatten t := by
  induction p generalizing u with
  | nil =>
    cases found
    exact List.Subset.refl _
  | cons i p ih =>
    obtain ⟨⟨value, children⟩, parent, child⟩ := Option.bind_eq_some_iff.mp found
    refine List.Subset.trans ?_ (ih parent)
    rw [flatten]
    exact List.Subset.trans (flatten_subset_flattenAll (List.mem_of_getElem? child))
      (List.subset_cons_self _ _)

theorem value_mem_flatten (found : t.get? p = some u) : u.value ∈ flatten t := by
  apply flatten_subset found
  obtain ⟨value, children⟩ := u
  exact List.mem_cons_self

theorem map_congr_flatten {β : Type} {f g : α → β} {t : Rose α} (same : ∀ a ∈ flatten t, f a = g a) :
    t.map f = t.map g := by
  induction t using Rose.children_induction with
  | step value children ih =>
    have here : f value = g value := same value List.mem_cons_self
    have each : children.map (Rose.map f) = children.map (Rose.map g) :=
      List.map_congr_left fun c member => ih c member fun a inside =>
        same a (List.mem_cons_of_mem value (flatten_subset_flattenAll member inside))
    have below := (Rose.children_map f (.mk value children)).trans
      (each.trans (Rose.children_map g (.mk value children)).symm)
    exact congrArg₂ Rose.mk here below

end Flatten

def Numbered (tree : Rose WrittenNode) : Prop := ∀ node ∈ flatten tree, node.spec.symbols = []

theorem mem_loopnests {table : SymbolTable} {node : NodePtr} {loop : Descriptor}
    (member : loop ∈ (platform.meant config workloads tree table).loopnests_ node) :
    ∃ written ∈ flatten tree, ∃ meant ∈ written.spec.loops, ∃ spacetime,
      (meant.loop (platform.configGlobals config workloads) spacetime table).toDescriptor = loop := by
  have root : (platform.meant config workloads tree table).root_ = (tree.map fun node =>
      node.spec.node (platform.configGlobals config workloads) table).map platform.info := rfl
  rw [Evaluator.loopnests_, Evaluator.ori_node_, root, Rose.get?_map, Rose.get?_map] at member
  cases place : tree.get? node with
  | none =>
    rw [place] at member
    cases member
  | some sub =>
    rw [place] at member
    obtain ⟨written, children⟩ := sub
    obtain ⟨meant, own⟩ := exists_of_descriptor member
    exact ⟨written, value_mem_flatten place, meant, own⟩

theorem meant_of_numbers (numbered : Numbered tree) (table : SymbolTable) :
    platform.meant config workloads tree table = platform.meant config workloads tree .empty := by
  have same : (tree.map fun node => node.spec.node (platform.configGlobals config workloads) table) =
      tree.map fun node => node.spec.node (platform.configGlobals config workloads) .empty :=
    map_congr_flatten fun node member => node_of_numbers (numbered node member)
  rw [Platform.meant, Platform.meant, same]

/-- From a configuration without variables that writes what is meant, `main` builds what is meant. It
    evaluates it to the end just when the passes before `PerfAnalysis` can accept the mapping, and the
    mapping and the links have what the parts of a run need. -/
theorem main_completes_iff (writes : platform.Writes config workloads tree) (numbered : Numbered tree) :
    platform.configure config = .ok (platform.meant config workloads tree .empty) ∧
    ((∃ state, platform.main config = .ok state) ↔
      (platform.meant config workloads tree .empty).Preparable ∧
        ∀ tree' leaf_vec_, (platform.meant config workloads tree .empty).prepare =
          .ok (tree', leaf_vec_) →
            (platform.meant config workloads tree .empty).Runnable tree' leaf_vec_) := by
  obtain ⟨table, _, configured⟩ := configure_written writes
  rw [meant_of_numbers numbered] at configured
  have loops {node : NodePtr} {loop : Descriptor}
      (member : loop ∈ (platform.meant config workloads tree .empty).loopnests_ node) :
      loop.start = 0 ∧ 1 ≤ loop.end_ ∧ 1 ≤ loop.residual_end := by
    obtain ⟨written, inside, meant, own, spacetime, rfl⟩ := mem_loopnests member
    have none : meant.symbols = [] := List.flatMap_eq_nil_iff.mp (numbered written inside) meant own
    exact ⟨rfl, positive_of_numbers none⟩
  have zero : (platform.meant config workloads tree .empty).StartsAtZero :=
    fun _ _ _ member => (loops member).1
  have positive : (platform.meant config workloads tree .empty).PositiveBounds :=
    fun _ _ _ member => (loops member).2
  have run : platform.main config = (platform.meant config workloads tree .empty).evaluate
      (platform.meant config workloads tree .empty).construct := by
    rw [Platform.main, configured, ok_bind]
  refine ⟨configured, ?_⟩
  rw [run, ← prepare_completes_iff]
  constructor
  · intro completed
    have ready : ∃ tree' leaf_vec_, (platform.meant config workloads tree .empty).prepare =
        .ok (tree', leaf_vec_) := by
      obtain ⟨state, evaluated⟩ := completed
      rw [Evaluator.evaluate_eq] at evaluated
      obtain ⟨⟨tree', leaf_vec_⟩, ready, _⟩ := bind_eq_ok.mp evaluated
      exact ⟨tree', leaf_vec_, ready⟩
    exact ⟨ready, fun tree' leaf_vec_ ready =>
      (evaluate_completes_iff zero positive ready).mp completed⟩
  · rintro ⟨⟨tree', leaf_vec_, ready⟩, runnable⟩
    exact (evaluate_completes_iff zero positive ready).mpr (runnable tree' leaf_vec_ ready)

/-! A copy on two levels. -/

def plainPlatform : Platform where
  re := Regex.Search.greedy factorPattern
  keyOrder := ⟨fun keys => keys, fun _ => List.Perm.refl _⟩
  hash_ := Config.firstKey
  toInt := id
  indeterminate := .Forward

def plainAttributes (compute_cycles : Option Nat) : LevelAttributes where
  sizeKB := none
  word_bits := some 16
  meshX := none
  meshY := none
  depth := none
  block_size := none
  compute_cycles := compute_cycles

def rows (n tail : PositiveInt) : LoopSpec := ⟨⟨'P', by decide⟩, .number n, some (.number tail)⟩

def copyMapping : Rose WrittenNode :=
  .mk (.ofSpec (.Tile ⟨"Main", .Write_back, ""⟩ (.Temporal [rows ⟨7, by decide⟩ ⟨6, by decide⟩])) trivial)
    [.mk (.ofSpec (.Op ⟨"Cube", .Write_back, ""⟩ "copy" [rows ⟨9, by decide⟩ ⟨5, by decide⟩]) trivial) []]

def copyConfig : Configuration where
  macros := fun _ => none
  arch :=
    [⟨"Main", "DRAM", some 1, some (plainAttributes none)⟩,
      ⟨"Cube", "MATRIX", some 1, some (plainAttributes (some 5))⟩]
  connection := [⟨"Main", "Cube", some 8, "HD"⟩]
  problem :=
    { io := some ("A", "B")
      dimensions := ["P"]
      ops :=
        [{ name := "copy"
           shape :=
            { dimensions := ["P"]
              coefficients := []
              flatten := none
              data_spaces := [⟨"A", .array ["P"]⟩, ⟨"B", .array ["P"]⟩] }
           ins := "A"
           out := "B"
           type := "VECTOR" }]
      instance_ := fun _ => some 50 }
  mapping := copyMapping.map WrittenNode.config

example : ((plainPlatform.main copyConfig).toOption.map fun state =>
    (state.data_movements_, state.latency_)) = some (108, 30) := by
  decide +kernel

theorem main_completes_iff_copy : ∃ workloads, plainPlatform.Writes copyConfig workloads copyMapping ∧
    plainPlatform.configure copyConfig =
      .ok (plainPlatform.meant copyConfig workloads copyMapping .empty) ∧
    (∃ state, plainPlatform.main copyConfig = .ok state) ∧
      (plainPlatform.meant copyConfig workloads copyMapping .empty).Preparable := by
  have computed : ((Problem.ParseWorkloads copyConfig.problem).toOption.map fun workloads =>
      ((workloads.common_shape_.FactorizedDimensionNameToID "P").isSome &&
        (workloads.workloads_ "copy").isSome)) = some true := by
    decide +kernel
  obtain ⟨workloads, problem, known⟩ := Option.map_eq_some_iff.mp computed
  rw [Bool.and_eq_true] at known
  have completed := exists_of_isOk (show (plainPlatform.main copyConfig).isOk = true by decide +kernel)
  have upper : (copyConfig.LevelName2IdxMap "Main").isSome := by decide
  have lower : (copyConfig.LevelName2IdxMap "Cube").isSome := by decide
  have writes : plainPlatform.Writes copyConfig workloads copyMapping := by
    refine ⟨by decide, by decide, mem_toOption.mp problem, rfl, ?_, ?_⟩
    · intro node member
      have cases : node ∈ flatten copyMapping := member
      simp only [copyMapping, flatten, flattenAll, List.append_nil, List.mem_cons,
        List.not_mem_nil, or_false] at cases
      rcases cases with rfl | rfl
      · exact ⟨upper, by decide, fun loop own => List.mem_singleton.mp own ▸ known.1, fun _ _ => rfl⟩
      · exact ⟨lower, ⟨by decide, fun loop own => List.mem_singleton.mp own ▸ known.1, fun _ _ => rfl⟩,
          known.2⟩
    · exact And.intro (fun _ => List.Subset.refl []) (And.intro (fun _ => List.Subset.refl []) trivial)
  have numbered : Numbered copyMapping := by
    intro node member
    have cases : node ∈ flatten copyMapping := member
    simp only [copyMapping, flatten, flattenAll, List.append_nil, List.mem_cons,
      List.not_mem_nil, or_false] at cases
    rcases cases with rfl | rfl
    · rfl
    · rfl
  obtain ⟨built, completes⟩ := main_completes_iff writes numbered
  exact ⟨workloads, writes, built, completed, (completes.mp completed).1⟩

end TileExp.Application
