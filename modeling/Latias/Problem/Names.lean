import Latias.Mapper.Projection
import Latias.Problem.Faithful
import Latias.Problem.ParseWorkloads

/-! Which data space the name of a tensor stands for. -/

namespace TileExp.Problem

open Checked

def DataSpaceConfig.dims (space : DataSpaceConfig) : List String :=
  match space.projection with
  | .array dim_names => dim_names
  | .list dimensions => dimensions.flatMap fun dimension => dimension.map fun term => term.headD ""

def ProblemConfig.data_spaces (config : ProblemConfig) : List DataSpaceConfig :=
  config.ops.flatMap fun op => op.shape.data_spaces

def declaredUnder (config : ProblemConfig) (op : OpConfig) (tensor : String) :
    List DataSpaceConfig :=
  if ∃ space ∈ op.shape.data_spaces, space.name = tensor then
    op.shape.data_spaces.filter fun space => space.name = tensor
  else config.data_spaces.filter fun space => space.name = tensor

def OpConfig.tensors (op : OpConfig) : List String := writtenNames op.ins ++ writtenNames op.out

/-- The names of an op are kept, and each gets the dimensions of its own data space. -/
structure ResolvesNames (config : ProblemConfig) (workloads : TileExp.Workloads) (op : OpConfig) :
    Prop where
  names : ∃ workload, workloads.get_workload op.name = .ok workload ∧
    workload.ins_ = writtenNames op.ins ∧ [workload.out_] = writtenNames op.out
  dims : ∃ dimName, workloads.getDimName op.tensors = .ok dimName ∧ ∀ tensor ∈ op.tensors,
    declaredUnder config op tensor ≠ [] ∧ ∀ space ∈ declaredUnder config op tensor,
      dimName.lookup tensor = some space.dims

/-- A dimension as the common shape knows it: one that the problem does not declare, as an op with
    `flatten` may have, is taken for the first. -/
def knownDim (dimensions : List String) (dim_name : String) : String :=
  if dim_name ∈ dimensions then dim_name else dimensions.headD ""

/-- The names of an op are made of letters and declared, with the dimensions that the first data
    space of that name has. -/
structure ProperNames (config : ProblemConfig) (op : OpConfig) : Prop where
  letters : ∀ tensor ∈ op.tensors, LetterName tensor
  declared : ∀ tensor ∈ op.tensors, ∃ first,
    config.data_spaces.find? (fun space => space.name = tensor) = some first ∧
      ∀ space ∈ declaredUnder config op tensor,
        space.dims = first.dims.map (knownDim config.dimensions)

variable {config : ProblemConfig} {op : OpConfig} {tensor : String}
  {workloads : TileExp.Workloads} {state : Workloads} {ops : List (String × OpWorkload)}
  {dims coefficients : List String} {space : DataSpace} {space_config : DataSpaceConfig}

/-! The dimensions of a parsed data space. -/

theorem parseTerm_dim {strings : List String} {term : Nat × Nat} {n : Nat}
    (call : parseTerm (nameToID dims) (nameToID coefficients) n strings = .ok term) :
    dims[term.2]? = some (strings.headD "") := by
  unfold parseTerm at call
  split at call
  · obtain ⟨dim_id, dim, result⟩ := bind_eq_ok.mp call
    cases result
    exact lookup_nameToID (atName_eq_ok dim)
  · obtain ⟨dim_id, dim, call⟩ := bind_eq_ok.mp call
    obtain ⟨coeff_id, _, result⟩ := bind_eq_ok.mp call
    cases result
    exact lookup_nameToID (atName_eq_ok dim)
  · cases call

theorem parseProjection_dims {n : Nat} {projection : List (List (Nat × Nat))}
    (call : parseProjection (nameToID dims) (nameToID coefficients) n space_config.projection =
      .ok projection) :
    (projection.map fun expr => expr.map fun term => dims[term.2]?).flatten =
      space_config.dims.map some := by
  rw [DataSpaceConfig.dims]
  cases given : space_config.projection with
  | array dim_names =>
    rw [given] at call
    have each := map_of_mapM call (g := fun dim_name => [some dim_name])
      (h := fun expr => expr.map fun term => dims[term.2]?) fun dim_name expr made => by
        obtain ⟨term, parsed, result⟩ := bind_eq_ok.mp made
        cases result
        rw [List.map_singleton, parseTerm_dim parsed]
        rfl
    rw [each, ← List.flatMap_def, ← List.map_eq_flatMap]
  | list dimensions =>
    rw [given] at call
    have each := map_of_mapM call (g := fun dimension => dimension.map fun term => some (term.headD ""))
      (h := fun expr => expr.map fun term => dims[term.2]?) fun dimension expr made =>
        map_of_mapM made fun strings term parsed => parseTerm_dim parsed
    rw [each, List.map_flatMap, List.flatMap_def]
    simp only [List.map_map]
    rfl

def DeclaredFrom (space_config : DataSpaceConfig) (d : Declaration) : Prop :=
  d.name = space_config.name ∧
    (d.expressions.map fun expr => expr.map Prod.snd).flatten = space_config.dims.map some

theorem declarationsOf_from {shape_config : ShapeConfig} {shape : OpShape} (registered : List String)
    (call : Parse shape_config = .ok shape) :
    List.Forall₂ DeclaredFrom shape_config.data_spaces (declarationsOf registered shape) := by
  obtain ⟨_, _, call⟩ := bind_eq_ok.mp call
  obtain ⟨flattened, _, call⟩ := bind_eq_ok.mp call
  obtain ⟨data_spaces, parsed, result⟩ := bind_eq_ok.mp call
  cases result
  rw [declarationsOf, List.forall₂_map_right_iff]
  apply (mapM_eq_ok parsed).imp
  intro space_config space made
  obtain ⟨projection, terms, result⟩ := bind_eq_ok.mp made
  cases result
  refine ⟨rfl, ?_⟩
  rw [← parseProjection_dims terms, OpShape.declaration, OpShape.expressions, List.map_map]
  congr 1
  apply List.map_congr_left
  intro expr _
  rw [Function.comp_apply, List.map_map]
  rfl

theorem declarations_from {op_configs : List OpConfig} {shapes : List OpShape}
    (pairs : List.Forall₂ (fun op shape => Parse op.shape = .ok shape) op_configs shapes)
    (registered : List String) :
    List.Forall₂ DeclaredFrom (op_configs.flatMap fun op => op.shape.data_spaces)
      (declarations registered shapes) := by
  induction pairs generalizing registered with
  | nil => exact List.Forall₂.nil
  | cons call _ ih =>
    rw [List.flatMap_cons, declarations]
    exact List.rel_append (declarationsOf_from registered call) (ih _)

theorem stored_dims {d : Declaration} (made : DeclaredFrom space_config d) :
    ((d.stored dims).map fun expr => expr.map fun term => term.2.getD "").flatten =
      space_config.dims.map (knownDim dims) := by
  have each : ((d.stored dims).map fun expr => expr.map fun term => term.2.getD "").flatten =
      (d.expressions.map fun expr => expr.map Prod.snd).flatten.map fun dimension =>
        (if ∃ name ∈ dims, dimension = some name then dimension else dims.head?).getD "" := by
    rw [List.map_flatten, Declaration.stored, List.map_map, List.map_map]
    congr 1
    apply List.map_congr_left
    intro expr _
    simp only [Function.comp_apply, List.map_map]
    rfl
  rw [each, made.2, List.map_map]
  apply List.map_congr_left
  intro dim_name _
  rw [Function.comp_apply, knownDim, List.headD_eq_head?_getD]
  simp only [Option.some.injEq, exists_eq_right']
  split
  · rfl
  · rfl

structure ParsedAs (config : ProblemConfig) (workloads : TileExp.Workloads) (state : Workloads)
    (ops : List (String × OpWorkload)) : Prop where
  pairs : List.Forall₂ (fun op (named : String × OpWorkload) =>
    named.1 = op.name ∧ ParseWorkload op = .ok named.2) config.ops ops
  run : ops.foldlM addSuccessfully (set_dims config.dimensions) = .ok state
  shape : workloads.common_shape_ = state.common_shape_.toShape
  workloads : workloads.workloads_ = fun name =>
    (state.workloads_.lookup name).map OpWorkload.toWorkload

theorem ParseWorkloads_eq_ok (call : ParseWorkloads config = .ok workloads) :
    ∃ state ops, ParsedAs config workloads state ops := by
  obtain ⟨_, _, call⟩ := bind_eq_ok.mp call
  obtain ⟨state, run, call⟩ := bind_eq_ok.mp call
  obtain ⟨bounds, _, result⟩ := bind_eq_ok.mp call
  cases result
  have body : parseOp = fun workloads op =>
      (ParseWorkload op >>= fun workload => .ok (op.name, workload)) >>= fun named =>
        addSuccessfully workloads named := by
    funext workloads op
    rw [parseOp, bind_assoc]
    rfl
  rw [body] at run
  obtain ⟨ops, pairs, run⟩ := foldlM_of_bind run
  refine ⟨state, ops, ⟨pairs.imp fun op named made => ?_, run, rfl, rfl⟩⟩
  obtain ⟨workload, parsed, result⟩ := bind_eq_ok.mp made
  cases result
  exact ⟨rfl, parsed⟩

theorem ParseWorkload_eq_ok {workload : OpWorkload} (call : ParseWorkload op = .ok workload) :
    Parse op.shape = .ok workload.shape ∧ workload.ins_ = Split op.ins ∧
      [workload.out_] = Split op.out := by
  obtain ⟨shape, parsed, call⟩ := bind_eq_ok.mp call
  obtain ⟨_, single, call⟩ := bind_eq_ok.mp call
  obtain ⟨_, _, result⟩ := bind_eq_ok.mp call
  cases result
  obtain ⟨out, only⟩ := List.length_eq_one_iff.mp (tileexpAssert_eq_ok.mp single)
  exact ⟨parsed, rfl, by rw [only]; rfl⟩

namespace ParsedAs

theorem shapes (parsed : ParsedAs config workloads state ops) :
    List.Forall₂ (fun op shape => Parse op.shape = .ok shape) config.ops
      (ops.map fun op => op.2.shape) := by
  rw [List.forall₂_map_right_iff]
  exact parsed.pairs.imp fun op named made => (ParseWorkload_eq_ok made.2).1

theorem formed (parsed : ParsedAs config workloads state ops) :
    ∀ op ∈ ops, op.2.shape.WellFormed := by
  intro op member
  obtain ⟨i, bound, rfl⟩ := List.getElem_of_mem member
  have made := parsed.pairs.get (parsed.pairs.length_eq ▸ bound) bound
  exact Parse_wellFormed (ParseWorkload_eq_ok made.2).1

theorem dimNamesOf (parsed : ParsedAs config workloads state ops) {first : DataSpaceConfig}
    (found : config.data_spaces.find? (fun space => space.name = tensor) = some first) :
    Workloads.dimNamesOf workloads.common_shape_ tensor =
      .ok (first.dims.map (knownDim config.dimensions)) := by
  have declared := declarations_from parsed.shapes []
  rcases Keys.find?_of_forall₂ (p := fun space => decide (space.name = tensor))
      (q := fun d => decide (d.name = tensor)) declared
      (fun space d made => by rw [made.1]) with ⟨none, _⟩ | ⟨space, d, at_space, at_d, made⟩
  · have missing := found.symm.trans none
    cases missing
  · have same := found.symm.trans at_space
    cases same
    obtain ⟨tables, stored⟩ := run_stored parsed.formed parsed.run
    obtain ⟨id, proj, named, placed, _, read⟩ := stored.present tensor d at_d
    have at_id : state.common_shape_.toShape.Projections[
        (state.common_shape_.toShape.DataSpaceNameToID tensor).getD 0]? =
          some (proj.map fun expr => expr.map fun term => (term.1.getD (2 ^ 32 - 1), term.2)) := by
      simp only [CommonShape.toShape, named, Option.getD_some, List.getElem?_map, placed,
        Option.map_some]
    rw [parsed.shape, Workloads.dimNamesOf, at_id, ← stored_dims made, ← read]
    simp only [CommonShape.toShape, tables.dim_names, readProjection, List.map_map, List.flatMap_def]
    congr 2
    apply List.map_congr_left
    intro expr _
    simp only [Function.comp_apply, List.map_map]
    rfl

theorem get_workload (parsed : ParsedAs config workloads state ops) (member : op ∈ config.ops) :
    ∃ workload, ParseWorkload op = .ok workload ∧
      workloads.get_workload op.name = .ok workload.toWorkload := by
  have kept := foldlM_induction parsed.run (fun done state =>
    ∀ named ∈ done, state.workloads_.lookup named.1 = some named.2)
    (fun named none => absurd none List.not_mem_nil) (by
      intro done named rest state state' _ before step other found
      obtain ⟨fresh, inserted, _⟩ := addSuccessfully_eq_ok step
      rw [inserted]
      rcases List.mem_append.mp found with earlier | last
      · have present := before other earlier
        have apart : other.1 ≠ named.1 := by
          intro same
          rw [same] at present
          exact fresh (AList.lookup_isSome.mp (by rw [present]; rfl))
        rw [AList.lookup_insert_ne apart, present]
      · cases List.mem_singleton.mp last
        exact AList.lookup_insert _)
  obtain ⟨i, bound, rfl⟩ := List.getElem_of_mem member
  have made := parsed.pairs.get bound (parsed.pairs.length_eq ▸ bound)
  refine ⟨_, made.2, ?_⟩
  have found := kept _ (List.get_mem ops ⟨i, parsed.pairs.length_eq ▸ bound⟩)
  have present : workloads.workloads_ config.ops[i].name =
      some (ops.get ⟨i, parsed.pairs.length_eq ▸ bound⟩).2.toWorkload := by
    rw [made.1] at found
    rw [parsed.workloads]
    exact congrArg (Option.map OpWorkload.toWorkload) found
  rw [Workloads.get_workload, present]

end ParsedAs

theorem exists_getDimName {names : List String}
    (each : ∀ t ∈ names, ∃ dims, Workloads.dimNamesOf workloads.common_shape_ t = .ok dims) :
    ∃ dimName, workloads.getDimName names = .ok dimName := by
  rw [Workloads.getDimName]
  generalize (∅ : Table (List String)) = table
  induction names generalizing table with
  | nil => exact ⟨table, rfl⟩
  | cons name names ih =>
    obtain ⟨dims, read⟩ := each name List.mem_cons_self
    obtain ⟨dimName, rest⟩ := ih (fun t inside => each t (List.mem_cons_of_mem name inside))
      (table.insert name dims)
    refine ⟨dimName, ?_⟩
    rw [List.foldlM_cons, read, ok_bind, ok_bind]
    exact rest

theorem mem_declaredUnder (member : op ∈ config.ops) {space : DataSpaceConfig}
    (inside : space ∈ declaredUnder config op tensor) :
    space ∈ config.data_spaces ∧ space.name = tensor := by
  unfold declaredUnder at inside
  split at inside
  · obtain ⟨own, name⟩ := List.mem_filter.mp inside
    exact ⟨List.mem_flatMap.mpr ⟨op, member, own⟩, of_decide_eq_true name⟩
  · obtain ⟨any, name⟩ := List.mem_filter.mp inside
    exact ⟨any, of_decide_eq_true name⟩

theorem declaredUnder_ne_nil {first : DataSpaceConfig}
    (found : config.data_spaces.find? (fun space => space.name = tensor) = some first) :
    declaredUnder config op tensor ≠ [] := by
  unfold declaredUnder
  split
  · next own =>
    obtain ⟨space, inside, name⟩ := own
    exact List.ne_nil_of_mem (List.mem_filter.mpr ⟨inside, decide_eq_true name⟩)
  · have name := List.find?_some found
    exact List.ne_nil_of_mem (List.mem_filter.mpr ⟨List.mem_of_find?_eq_some found, name⟩)

/-- The tensor names of an op resolve to their own data spaces just when they are made of letters
    and all declarations agree. -/
theorem resolvesNames_iff (call : ParseWorkloads config = .ok workloads) (member : op ∈ config.ops) :
    ResolvesNames config workloads op ↔ ProperNames config op := by
  obtain ⟨state, ops, parsed⟩ := ParseWorkloads_eq_ok call
  obtain ⟨workload, made, kept⟩ := parsed.get_workload member
  obtain ⟨_, ins, out⟩ := ParseWorkload_eq_ok made
  have names : (∃ workload, workloads.get_workload op.name = .ok workload ∧
      workload.ins_ = writtenNames op.ins ∧ [workload.out_] = writtenNames op.out) ↔
        ∀ tensor ∈ op.tensors, LetterName tensor := by
    have letters : (∀ tensor ∈ op.tensors, LetterName tensor) ↔
        Split op.ins = writtenNames op.ins ∧ Split op.out = writtenNames op.out := by
      rw [Split_eq_written_iff, Split_eq_written_iff, OpConfig.tensors, List.forall_mem_append]
    rw [letters, ← ins, ← out]
    constructor
    · rintro ⟨found, same, in_names, out_name⟩
      rw [kept] at same
      cases same
      exact ⟨in_names, out_name⟩
    · exact fun both => ⟨workload.toWorkload, kept, both⟩
  constructor
  · intro resolves
    refine ⟨names.mp resolves.names, fun tensor inside => ?_⟩
    obtain ⟨dimName, read, each⟩ := resolves.dims
    obtain ⟨declared, dims⟩ := each tensor inside
    obtain ⟨space, at_space⟩ := List.exists_mem_of_ne_nil _ declared
    obtain ⟨anywhere, name⟩ := mem_declaredUnder member at_space
    have some : (config.data_spaces.find? fun space => space.name = tensor).isSome = true := by
      rw [List.find?_isSome]
      exact ⟨space, anywhere, decide_eq_true name⟩
    obtain ⟨first, found⟩ := Option.isSome_iff_exists.mp some
    refine ⟨first, found, fun space at_space => ?_⟩
    obtain ⟨names, known, computed⟩ := getDimName_reads read inside
    rw [parsed.dimNamesOf found] at computed
    cases computed
    have own := dims space at_space
    rw [known] at own
    exact (Option.some_inj.mp own).symm
  · intro proper
    refine ⟨names.mpr proper.letters, ?_⟩
    have computed : ∀ tensor ∈ op.tensors, ∃ dims,
        Workloads.dimNamesOf workloads.common_shape_ tensor = .ok dims := by
      intro tensor inside
      obtain ⟨first, found, _⟩ := proper.declared tensor inside
      exact ⟨_, parsed.dimNamesOf found⟩
    obtain ⟨dimName, read⟩ := exists_getDimName computed
    refine ⟨dimName, read, fun tensor inside => ?_⟩
    obtain ⟨first, found, agree⟩ := proper.declared tensor inside
    refine ⟨declaredUnder_ne_nil found, fun space at_space => ?_⟩
    obtain ⟨names, known, computed⟩ := getDimName_reads read inside
    rw [parsed.dimNamesOf found] at computed
    cases computed
    rw [known, agree space at_space]

def numbered : ProblemConfig where
  io := some ("A, W1", "O")
  dimensions := ["M", "N", "K"]
  ops :=
    [{ name := "GEMM"
       shape :=
        { dimensions := ["M", "N", "K"]
          coefficients := []
          flatten := none
          data_spaces := [⟨"A", .array ["M", "K"]⟩, ⟨"W1", .array ["K", "N"]⟩, ⟨"O", .array ["M", "N"]⟩] }
       ins := "A, W1"
       out := "O"
       type := "MATRIX" }]
  instance_ := fun _ => some 16

/-- The second input of the product is taken for the first. -/
theorem numbered_reads_other_tensor :
    ∃ workloads, ParseWorkloads numbered = .ok workloads ∧
      (workloads.getInOutTensor "GEMM").toOption = some ["A", "W", "O"] ∧
      (workloads.getDimName ["W"]).toOption.bind (AList.lookup "W") = some ["M", "K"] ∧
      ∃ op ∈ numbered.ops, ¬ ResolvesNames numbered workloads op := by
  have computed : ((ParseWorkloads numbered).toOption.map fun workloads =>
      ((workloads.getInOutTensor "GEMM").toOption,
        (workloads.getDimName ["W"]).toOption.bind (AList.lookup "W"),
        ((workloads.get_workload "GEMM").toOption.map Workload.ins_))) =
          some (some ["A", "W", "O"], some ["M", "K"], some ["A", "W"]) := by
    decide +kernel
  cases call : ParseWorkloads numbered with
  | error fault => rw [call] at computed; cases computed
  | ok workloads =>
    rw [call] at computed
    have values := Option.some_inj.mp computed
    simp only [Prod.mk.injEq] at values
    refine ⟨workloads, rfl, values.1, values.2.1, _, List.mem_cons_self, fun resolves => ?_⟩
    obtain ⟨workload, found, ins, _⟩ := resolves.names
    have kept : some workload.ins_ = some ["A", "W"] := by
      rw [← values.2.2]
      exact congrArg (fun w => (Except.toOption w).map Workload.ins_) found.symm
    rw [Option.some_inj.mp kept] at ins
    exact absurd ins (by decide +kernel)

def lettered : ProblemConfig where
  io := some ("A, B", "O")
  dimensions := ["M", "N", "K"]
  ops :=
    [{ name := "GEMM"
       shape :=
        { dimensions := ["M", "N", "K"]
          coefficients := []
          flatten := none
          data_spaces := [⟨"A", .array ["M", "K"]⟩, ⟨"B", .array ["K", "N"]⟩, ⟨"O", .array ["M", "N"]⟩] }
       ins := "A, B"
       out := "O"
       type := "MATRIX" }]
  instance_ := fun _ => some 16

theorem resolvesNames_iff_lettered :
    ∃ workloads op, ParseWorkloads lettered = .ok workloads ∧ op ∈ lettered.ops ∧
      op.tensors = ["A", "B", "O"] ∧
      (ResolvesNames lettered workloads op ↔ ProperNames lettered op) := by
  have completed : (ParseWorkloads lettered).isOk = true := by
    decide +kernel
  obtain ⟨workloads, call⟩ := exists_of_isOk completed
  refine ⟨workloads, _, call, List.mem_cons_self, by decide +kernel, ?_⟩
  exact resolvesNames_iff call List.mem_cons_self

end TileExp.Problem
