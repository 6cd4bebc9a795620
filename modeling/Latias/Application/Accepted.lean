import Latias.Application.Written
import Latias.Mapping.Nests
import Latias.Problem.Names

/-! What `main` hands to the `Evaluator`, whatever the configuration. -/

namespace TileExp.Application

open Checked Analysis Mapping TileExp.Symbol

/-- A node that refers to what is there: its loops to dimensions, its level to one that is numbered,
    an Op to a workload under the end of its name. -/
structure Refers (g : Globals) (info : NodeInfo) : Prop where
  loops : ∀ loop ∈ info.kind.loopnests_, loop.start = 0 ∧ loop.stride = 1 ∧
    (g.workloads_.common_shape_.FactorizedDimensionNameToID loop.name_).isSome
  level : info.kind.type_ ≠ .Scope → (g.LevelName2IdxMap info.target_level_name).isSome
  workload : info.kind.type_ = .Op → ∃ start op_name_, info.name_ = start ++ "::" ++ op_name_ ∧
    (g.workloads_.workloads_ op_name_).isSome

section Nodes

variable {platform : Platform} {g : Globals} {table table' : SymbolTable} {config : NodeConfig}
  {loop_bounds : LoopBounds} {spacetime : Nat → Nat → Dimension} {loops : List Loop}

theorem makeLoop_refers {spacetime : Nat → Dimension} {iter : String × Nat} {loop : Loop}
    (made : makeLoop g loop_bounds spacetime iter = .ok loop) : loop.start = 0 ∧ loop.stride = 1 ∧
      (g.workloads_.common_shape_.FactorizedDimensionNameToID loop.name_).isSome := by
  rw [makeLoop] at made
  cases known : g.workloads_.common_shape_.FactorizedDimensionNameToID iter.1 with
  | none =>
    rw [known] at made
    cases made
  | some dimension =>
    rw [known] at made
    cases made
    exact ⟨rfl, rfl, Option.isSome_of_eq_some known⟩

theorem parseLoops_refer (parsed : parseLoops g config loop_bounds spacetime = .ok loops) :
    ∀ loop ∈ loops.map Loop.toDescriptor, loop.start = 0 ∧ loop.stride = 1 ∧
      (g.workloads_.common_shape_.FactorizedDimensionNameToID loop.name_).isSome := by
  intro descriptor member
  obtain ⟨loop, inside, rfl⟩ := List.mem_map.mp member
  obtain ⟨_, split, made⟩ := parseLoops_eq_ok parsed
  obtain ⟨iter, _, one⟩ := mem_of_mapM made inside
  exact makeLoop_refers one

theorem base_level {t : NodeType} {node : NodeBase} (made : NodeBase.construct g t config = .ok node)
    (other : t ≠ .Scope) : (g.LevelName2IdxMap node.target_level_name).isSome := by
  rw [NodeBase.construct] at made
  obtain ⟨⟨name, id⟩, target, made⟩ := bind_eq_ok.mp made
  obtain ⟨mode, _, made⟩ := bind_eq_ok.mp made
  cases made
  have apart : type2name_ t ≠ "Scope" := by
    cases t with
    | Scope => exact absurd rfl other
    | Tile => decide
    | Op => decide
    | Trans => decide
  unfold parseTarget at target
  split at target
  · simp only at target
    split at target
    · next known =>
      cases target
      exact Option.isSome_of_eq_some known
    · cases target
  · cases target

theorem construct_refers {node : ParsedNode} (made : construct g table config = .ok (table', node)) :
    Refers g (platform.info node) := by
  rw [construct] at made
  cases typed : config.node_type.lookupValue with
  | none =>
    rw [typed] at made
    cases made
  | some value =>
    rw [typed] at made
    dsimp only at made
    split at made
    · obtain ⟨⟨after, tile⟩, built, result⟩ := bind_eq_ok.mp made
      cases result
      obtain ⟨loop_bounds, _, _, parsed⟩ := TileNode.construct_eq_ok built
      obtain ⟨node, based, built⟩ := bind_eq_ok.mp built
      obtain ⟨type_, _, built⟩ := bind_eq_ok.mp built
      obtain ⟨bounds, _, built⟩ := bind_eq_ok.mp built
      obtain ⟨loops, _, built⟩ := bind_eq_ok.mp built
      cases built
      exact ⟨parseLoops_refer parsed, base_level based, fun other => NodeType.noConfusion other⟩
    · split at made
      · obtain ⟨⟨after, op⟩, built, result⟩ := bind_eq_ok.mp made
        cases result
        obtain ⟨base, based, built⟩ := bind_eq_ok.mp built
        split at built
        · cases built
        · next op_name_ _ =>
          obtain ⟨bounds, _, built⟩ := bind_eq_ok.mp built
          obtain ⟨_, _, built⟩ := bind_eq_ok.mp built
          obtain ⟨loops, parsed, built⟩ := bind_eq_ok.mp built
          obtain ⟨workload, listed, built⟩ := bind_eq_ok.mp built
          cases built
          refine ⟨parseLoops_refer parsed, fun _ => base_level based NodeType.noConfusion,
            fun _ => ⟨base.name_, op_name_, rfl, ?_⟩⟩
          rw [Workloads.get_workload] at listed
          split at listed
          · next known => exact Option.isSome_of_eq_some known
          · cases listed
      · split at made
        · obtain ⟨scope, built, result⟩ := bind_eq_ok.mp made
          cases result
          exact ⟨fun loop none => absurd none List.not_mem_nil, fun other => absurd rfl other,
            fun other => NodeType.noConfusion other⟩
        · split at made
          · obtain ⟨trans, built, result⟩ := bind_eq_ok.mp made
            cases result
            obtain ⟨base, based, built⟩ := bind_eq_ok.mp built
            cases built
            exact ⟨fun loop none => absurd none List.not_mem_nil,
              fun _ => base_level based NodeType.noConfusion, fun other => NodeType.noConfusion other⟩
          · cases made

end Nodes

section Problems

variable {config : Problem.ProblemConfig} {workloads : TileExp.Workloads} {dim_name : String}

theorem lookup_bounds {ids : Table Nat} {bounds : List (Nat × Int)}
    (own : ∀ name ∈ config.dimensions, ∀ name' ∈ config.dimensions, ∀ id,
      ids.lookup name = some id → ids.lookup name' = some id → name = name')
    (run : Problem.setBounds config ids = .ok bounds) (member : dim_name ∈ config.dimensions) :
    ∃ bound id, config.instance_ dim_name = some bound ∧ ids.lookup dim_name = some id ∧
      bounds.lookup id = some bound := by
  revert dim_name
  refine foldlM_induction run (fun done bounds => ∀ {dim_name}, dim_name ∈ done →
    ∃ bound id, config.instance_ dim_name = some bound ∧ ids.lookup dim_name = some id ∧
      bounds.lookup id = some bound) (fun none => absurd none List.not_mem_nil) ?_
  intro done dim rest before after split held step dim_name member
  split at step
  · next bound id given numbered =>
    cases step
    by_cases here : dim_name = dim
    · subst here
      exact ⟨bound, id, given, numbered, List.lookup_cons_self⟩
    · have earlier : dim_name ∈ done :=
        (List.mem_append.mp member).resolve_right fun last => here (List.mem_singleton.mp last)
      obtain ⟨bound', id', given', numbered', found⟩ := held earlier
      have inside : dim_name ∈ config.dimensions := split ▸ List.mem_append_left _ earlier
      have last : dim ∈ config.dimensions := split ▸ List.mem_append_right _ List.mem_cons_self
      have apart : id' ≠ id := fun same => here (own _ inside _ last id (same ▸ numbered') numbered)
      refine ⟨bound', id', given', numbered', ?_⟩
      rw [List.lookup_cons, beq_eq_false_iff_ne.mpr apart]
      exact found
  · cases step
  · cases step

/-- Where the bound of a dimension comes from. A declared one has the bound that the instance gives
    it. Any other is a dimension of some op, and was inserted with the id 0: it has the bound of the
    declared dimension with that id. -/
structure BoundFrom (config : Problem.ProblemConfig) (workloads : TileExp.Workloads)
    (dim_name : String) : Prop where
  declared : dim_name ∈ config.dimensions → ∃ bound, config.instance_ dim_name = some bound ∧
    workloads.factorized_bound dim_name = bound
  inserted : dim_name ∉ config.dimensions → (∃ op ∈ config.ops, dim_name ∈ op.shape.dimensions) ∧
    ∀ first, (Problem.nameToID config.dimensions).lookup first = some 0 →
      ∃ bound, config.instance_ first = some bound ∧ workloads.factorized_bound dim_name = bound

theorem mem_shape_dimensions {op : Problem.OpConfig} {workload : Problem.OpWorkload}
    (made : Problem.ParseWorkload op = .ok workload)
    (member : dim_name ∈ workload.shape.FactorizedDimensionIDToName) :
    dim_name ∈ op.shape.dimensions := by
  obtain ⟨base, shape⟩ := workload
  obtain ⟨parsed, _, _⟩ := Problem.ParseWorkload_eq_ok made
  obtain ⟨_, _, parsed⟩ := bind_eq_ok.mp parsed
  obtain ⟨_, _, parsed⟩ := bind_eq_ok.mp parsed
  obtain ⟨_, _, result⟩ := bind_eq_ok.mp parsed
  cases result
  exact member

theorem bound_of_instance (parsed : Problem.ParseWorkloads config = .ok workloads)
    (known : (workloads.common_shape_.FactorizedDimensionNameToID dim_name).isSome) :
    BoundFrom config workloads dim_name := by
  obtain ⟨state, ops, as⟩ := Problem.ParseWorkloads_eq_ok parsed
  have held := (Problem.run_stored as.formed as.run).1.dim_ids
  obtain ⟨_, _, parsed⟩ := bind_eq_ok.mp parsed
  obtain ⟨state', _, parsed⟩ := bind_eq_ok.mp parsed
  obtain ⟨bounds, written, result⟩ := bind_eq_ok.mp parsed
  cases result
  have ids (name : String) : state'.common_shape_.FactorizedDimensionNameToID.lookup name =
      state.common_shape_.FactorizedDimensionNameToID.lookup name :=
    congrFun (congrArg Shape.FactorizedDimensionNameToID as.shape) name
  have numbered {name : String} (inside : name ∈ config.dimensions) :
      state'.common_shape_.FactorizedDimensionNameToID.lookup name =
        (Problem.nameToID config.dimensions).lookup name := (ids name).trans (held.declared name inside)
  have own : ∀ name ∈ config.dimensions, ∀ name' ∈ config.dimensions, ∀ id,
      state'.common_shape_.FactorizedDimensionNameToID.lookup name = some id →
      state'.common_shape_.FactorizedDimensionNameToID.lookup name' = some id → name = name' := by
    intro name inside name' inside' id first second
    have here := Problem.lookup_nameToID ((numbered inside).symm.trans first)
    have there := Problem.lookup_nameToID ((numbered inside').symm.trans second)
    exact Option.some_inj.mp (here.symm.trans there)
  have declared {name : String} (inside : name ∈ config.dimensions) : ∃ bound id,
      config.instance_ name = some bound ∧
      state'.common_shape_.FactorizedDimensionNameToID.lookup name = some id ∧
      bounds.lookup id = some bound := lookup_bounds own written inside
  constructor
  · intro inside
    obtain ⟨bound, id, given, at_id, found⟩ := declared inside
    refine ⟨bound, given, ?_⟩
    simp only [Workloads.factorized_bound, Problem.CommonShape.toShape, at_id, Option.getD_some, found]
  · intro outside
    have present : dim_name ∈ state.common_shape_.FactorizedDimensionNameToID := by
      rw [← AList.lookup_isSome, ← ids]
      exact known
    constructor
    · obtain ⟨named, inside, own⟩ := (Problem.run_dimensions as.run present).resolve_left outside
      obtain ⟨i, bound, rfl⟩ := List.getElem_of_mem inside
      have bound' : i < config.ops.length := as.pairs.length_eq ▸ bound
      exact ⟨config.ops[i], List.getElem_mem bound',
        mem_shape_dimensions (as.pairs.get bound' bound).2 own⟩
    · intro first zero
      have inside := Problem.mem_nameToID.mp
        (AList.lookup_isSome.mp (Option.isSome_of_eq_some zero))
      obtain ⟨bound, id, given, at_id, found⟩ := declared inside
      have same : id = 0 := Option.some_inj.mp (at_id.symm.trans ((numbered inside).trans zero))
      obtain ⟨own, at_own⟩ := Option.isSome_iff_exists.mp known
      have zero' : own = 0 := held.inserted dim_name outside own ((ids dim_name).symm.trans at_own)
      subst same zero'
      have read : state'.common_shape_.FactorizedDimensionNameToID.lookup dim_name = some 0 := at_own
      refine ⟨bound, given, ?_⟩
      simp only [Workloads.factorized_bound, Problem.CommonShape.toShape, read, Option.getD_some, found]

end Problems

/-- What every evaluation of a configuration can rely on: loops from 0 in steps of 1, over dimensions
    whose bounds come from the instance; levels with the cycles that their last entries give; links
    that their last connections give; and Ops with workloads. -/
structure Grounded (config : Configuration) (ev : Evaluator) : Prop where
  loops : ∀ node, ∀ loop ∈ ev.loopnests_ node, loop.start = 0 ∧ loop.stride = 1 ∧
    BoundFrom config.problem ev.workloads_ loop.name_
  levels : ∀ node ∈ Rose.postorder [] ev.root_, ev.get_type node ≠ .Scope →
    ∃ entry levelAttri_, LevelConfig.declared config.arch (ev.target_level node) = some entry ∧
      entry.1.parse = .ok levelAttri_ ∧
      ev.arch_topo_.compute_cycles (ev.target_level node) = levelAttri_.compute_cycles
  links : ev.intercon_ = config.links
  ops : ∀ node ∈ Rose.postorder [] ev.root_, ev.get_type node = .Op → ∃ start op_name_,
    (ev.ori_node_ node).get_name = start ++ "::" ++ op_name_ ∧
      (ev.workloads_.workloads_ op_name_).isSome

variable {platform : Platform} {config : Configuration} {ev : Evaluator}

theorem position_of_loop {node : NodePtr} {loop : Descriptor} (own : loop ∈ ev.loopnests_ node) :
    node ∈ Rose.postorder [] ev.root_ := by
  apply InitAnalysis.mem_positions.mpr
  cases found : ev.root_.get? node with
  | some sub => rfl
  | none =>
    rw [Evaluator.loopnests_, Evaluator.ori_node_, found] at own
    cases own

theorem compute_cycles_touch (archTopo : ArchTopo) (level : String) :
    (archTopo.touch level).compute_cycles = archTopo.compute_cycles := by
  unfold ArchTopo.touch
  split
  · rfl
  · next absent =>
    funext name
    by_cases here : name = level
    · simp [ArchTopo.compute_cycles, here, absent]
    · simp [ArchTopo.compute_cycles, here]

theorem compute_cycles_parsed {archTopo touched : ArchTopo} {config_ : List Connection}
    {intercon : InterCon} (parsed : ParseInterConnection archTopo config_ = .ok (intercon, touched)) :
    touched.compute_cycles = archTopo.compute_cycles := by
  refine foldlM_induction parsed (fun _ s => s.2.compute_cycles = archTopo.compute_cycles) rfl ?_
  intro done config rest before after _ held step
  obtain ⟨node, _, result⟩ := bind_eq_ok.mp step
  cases result
  rw [← held]
  unfold Connection.touched
  split
  · rfl
  · rw [compute_cycles_touch, compute_cycles_touch]

theorem refers_of_parsed {g : Globals} {table table' : SymbolTable} {mapping : Rose NodeConfig}
    {tree : Rose ParsedNode} (parsed : RecursiveParse g table mapping = .ok (table', tree)) {node : ParsedNode}
    (member : node ∈ flatten tree) : Refers g (platform.info node) := by
  obtain ⟨steps, ran, nodes⟩ := run_of_RecursiveParse mapping table table' tree parsed
  rw [← nodes] at member
  obtain ⟨step, inside, rfl⟩ := List.mem_map.mp member
  obtain ⟨_, after, made⟩ := made_of_run ran inside
  exact construct_refers made

/-- `main` builds no other evaluators. -/
theorem configure_grounded (configured : platform.configure config = .ok ev) : Grounded config ev := by
  obtain ⟨archTopo_, topology, configured⟩ := bind_eq_ok.mp configured
  obtain ⟨⟨interCon_, touched⟩, linked, configured⟩ := bind_eq_ok.mp configured
  obtain ⟨workloads, problem, configured⟩ := bind_eq_ok.mp configured
  obtain ⟨⟨table, tree⟩, parsed, result⟩ := bind_eq_ok.mp configured
  cases result
  obtain ⟨places, records⟩ := topology_parsed topology
  rw [records] at linked
  rw [places] at parsed
  have refers {node : NodePtr} {sub : Node} (found : (tree.map platform.info).get? node = some sub) :
      Refers (platform.globals config.macros config.LevelName2IdxMap workloads) sub.value := by
    rw [Rose.get?_map] at found
    obtain ⟨⟨parsed_node, children⟩, place, rfl⟩ := Option.map_eq_some_iff.mp found
    exact refers_of_parsed parsed (value_mem_flatten place)
  generalize made : platform.evaluator workloads touched interCon_ tree = ev
  have root : ev.root_ = tree.map platform.info := by rw [← made]; rfl
  have at_node {node : NodePtr} (inside : node ∈ Rose.postorder [] ev.root_) :
      Refers (platform.globals config.macros config.LevelName2IdxMap workloads)
        (ev.ori_node_ node).value := by
    obtain ⟨sub, found⟩ := Option.isSome_iff_exists.mp (InitAnalysis.mem_positions.mp inside)
    rw [Evaluator.ori_node_of_get? found]
    exact refers (root ▸ found)
  have same_workloads : ev.workloads_ = workloads := by rw [← made]; rfl
  have cycles : ev.arch_topo_.compute_cycles = config.levels.compute_cycles := by
    rw [← compute_cycles_parsed linked, ← made]
    rfl
  constructor
  · intro node loop member
    obtain ⟨start, stride, known⟩ := (at_node (position_of_loop member)).loops loop member
    rw [same_workloads]
    exact ⟨start, stride, bound_of_instance problem known⟩
  · intro node inside other
    have known := (at_node inside).level other
    have present : (LevelConfig.declared config.arch (ev.target_level node)).isSome :=
      Option.isSome_map ▸ known
    obtain ⟨entry, declared⟩ := Option.isSome_iff_exists.mp present
    have record := (LevelConfig.parsed_levels topology).records (ev.target_level node)
    rw [declared] at record
    obtain ⟨levelAttri_, own, _⟩ := record
    refine ⟨entry, levelAttri_, declared, own, ?_⟩
    have found : config.levels.archTopo_map_ (ev.target_level node) = some levelAttri_.toLevelAttri := by
      simp only [Configuration.levels, declared, Option.bind_some, own]
      rfl
    rw [cycles, ArchTopo.compute_cycles, found]
  · rw [← made]
    exact links_meant linked
  · intro node inside op
    rw [same_workloads]
    exact (at_node inside).workload op

theorem configure_grounded_copy :
    ∃ ev, plainPlatform.configure copyConfig = .ok ev ∧ Grounded copyConfig ev := by
  obtain ⟨ev, configured⟩ := exists_of_isOk
    (show (plainPlatform.configure copyConfig).isOk = true by decide +kernel)
  exact ⟨ev, configured, configure_grounded configured⟩

def flattenedConfig : Configuration :=
  { copyConfig with
    problem := { copyConfig.problem with
      dimensions := ["M"]
      ops := copyConfig.problem.ops.map fun op => { op with
        shape := { op.shape with dimensions := ["P", "Q"], flatten := some [("M", ["P", "Q"])] } }
      instance_ := fun dim => if dim = "M" then some 50 else none } }

example : ((plainPlatform.configure flattenedConfig).toOption.map fun ev =>
    ev.workloads_.factorized_bound "P") = some 50 := by
  decide +kernel

end TileExp.Application
