import Latias.Problem.AddWorkload

/-! What the projections of the common shape read back as. -/

namespace TileExp.Problem

open Checked

/-- A term by names: of its coefficient if it has one, and of its dimension. A name is `none` when
    the id is in no table. -/
abbrev TermNames := Option (Option String) × Option String

namespace OpShape

def termNames (shape : OpShape) (term : Nat × Nat) : TermNames :=
  (if term.1 = shape.NumCoefficients then none else some shape.CoefficientIDToName[term.1]?,
    shape.FactorizedDimensionIDToName[term.2]?)

def expressions (shape : OpShape) (space : DataSpace) : List (List TermNames) :=
  space.projection.map fun expr => expr.map shape.termNames

end OpShape

def readTerm (dims coefficients : List String) (term : Option Nat × Nat) : TermNames :=
  (term.1.map fun id => coefficients[id]?, dims[term.2]?)

def readProjection (dims coefficients : List String) (proj : List (List (Option Nat × Nat))) :
    List (List TermNames) :=
  proj.map fun expr => expr.map (readTerm dims coefficients)

def CommonShape.expressions (common : CommonShape) (proj : List (List (Option Nat × Nat))) :
    List (List TermNames) :=
  readProjection common.FactorizedDimensionIDToName common.CoefficientIDToName proj

/-- The common shape reads a data space back as its op has it. -/
def Represents (common : CommonShape) (shape : OpShape) (space : DataSpace) : Prop :=
  ∃ id proj, common.DataSpaceNameToID.lookup space.name = some id ∧
    common.Projections[id]? = some proj ∧ common.expressions proj = shape.expressions space

structure Declaration where
  name : String
  expressions : List (List TermNames)
  registered : List String
  added : List String

/-- What becomes of the names of a term: an unknown name reads as the one with id 0. -/
def storedTerm (dims registered added : List String) (term : TermNames) : TermNames :=
  (term.1.map fun coefficient =>
      if ∃ name ∈ registered, coefficient = some name then coefficient
      else (registered ++ added).head?,
    if ∃ name ∈ dims, term.2 = some name then term.2 else dims.head?)

def Declaration.stored (dims : List String) (d : Declaration) : List (List TermNames) :=
  d.expressions.map fun expr => expr.map (storedTerm dims d.registered d.added)

def OpShape.declaration (shape : OpShape) (registered : List String) (space : DataSpace) :
    Declaration :=
  ⟨space.name, shape.expressions space, registered, shape.coefficientNames⟩

def declarationsOf (registered : List String) (shape : OpShape) : List Declaration :=
  shape.data_spaces.map (shape.declaration registered)

def registeredBy (shapes : List OpShape) : List String := shapes.flatMap OpShape.coefficientNames

def declarations (registered : List String) : List OpShape → List Declaration
  | [] => []
  | shape :: shapes =>
    declarationsOf registered shape ++ declarations (registered ++ shape.coefficientNames) shapes

variable {dims registered added : List String} {shape : OpShape} {shapes : List OpShape}
  {common common' : CommonShape} {term : Nat × Nat} {ds : List Declaration} {name : String}

theorem declarations_append (registered : List String) (a b : List OpShape) :
    declarations registered (a ++ b) =
      declarations registered a ++ declarations (registered ++ registeredBy a) b := by
  induction a generalizing registered with
  | nil => simp [declarations, registeredBy]
  | cons shape a ih =>
    have names : registeredBy (shape :: a) = shape.coefficientNames ++ registeredBy a := rfl
    rw [List.cons_append, declarations, declarations, ih, names, List.append_assoc, List.append_assoc]

structure DimIds (dims : List String) (ids : Table Nat) : Prop where
  declared : ∀ name ∈ dims, ids.lookup name = (nameToID dims).lookup name
  inserted : ∀ name ∉ dims, ∀ id, ids.lookup name = some id → id = 0

structure Tables (dims registered : List String) (common : CommonShape) : Prop where
  dim_names : common.FactorizedDimensionIDToName = dims
  dim_ids : DimIds dims common.FactorizedDimensionNameToID
  names : common.CoefficientIDToName = registered
  found : ∀ name id, common.CoefficientNameToID.lookup name = some id → registered[id]? = some name
  known : ∀ name, name ∈ common.CoefficientNameToID ↔ name ∈ registered

theorem getElem?_idOf {names : List String} {table : Table Nat}
    (found : ∀ name id, table.lookup name = some id → names[id]? = some name)
    (known : ∀ name, name ∈ table ↔ name ∈ names) (name : String) (more : List String) :
    (names ++ more)[(table.lookup name).getD 0]? =
      if name ∈ names then some name else (names ++ more).head? := by
  cases read : table.lookup name with
  | some id =>
    have value := found name id read
    have bound : id < names.length := (List.getElem?_eq_some_iff.mp value).1
    rw [if_pos (List.mem_of_getElem? value), Option.getD_some, List.getElem?_append_left bound]
    exact value
  | none =>
    have outside : name ∉ names := by
      rw [← known]
      exact AList.lookup_eq_none.mp read
    rw [if_neg outside, Option.getD_none, List.head?_eq_getElem?]

def ValidIds (coefficients : List String) (proj : List (List (Option Nat × Nat))) : Prop :=
  ∀ expr ∈ proj, ∀ term ∈ expr, ∀ id, term.1 = some id → id < coefficients.length

theorem readProjection_append {proj : List (List (Option Nat × Nat))} {coefficients : List String}
    (valid : ValidIds coefficients proj) (more : List String) :
    readProjection dims (coefficients ++ more) proj = readProjection dims coefficients proj := by
  apply List.map_congr_left
  intro expr inside
  apply List.map_congr_left
  intro term member
  obtain ⟨coefficient, dim⟩ := term
  cases coefficient with
  | none => rfl
  | some id =>
    have bound := valid expr inside _ member id rfl
    simp only [readTerm, Option.map_some, List.getElem?_append_left bound]

theorem ValidIds.append {proj : List (List (Option Nat × Nat))} {coefficients : List String}
    (valid : ValidIds coefficients proj) (more : List String) :
    ValidIds (coefficients ++ more) proj := by
  intro expr inside term member id same
  have bound := valid expr inside term member id same
  rw [List.length_append]
  omega

theorem dimIds_nameToID (dims : List String) : DimIds dims (nameToID dims) where
  declared := fun _ _ => rfl
  inserted := fun _ outside _ found =>
    absurd (mem_nameToID.mp (AList.lookup_isSome.mp (Option.isSome_of_eq_some found))) outside

theorem DimIds.insertDimension {ids : Table Nat} (held : DimIds dims ids) (shape : OpShape)
    (id : Nat) : DimIds dims (insertDimension shape ids id) := by
  unfold Problem.insertDimension
  split
  · next dim_name _ =>
    split
    · exact held
    · next absent =>
      constructor
      · intro name inside
        have apart : name ≠ dim_name := by
          rintro rfl
          have present : name ∈ nameToID dims := mem_nameToID.mpr inside
          rw [← AList.lookup_isSome, ← held.declared name inside, AList.lookup_isSome] at present
          exact absent present
        rw [AList.lookup_insert_ne apart]
        exact held.declared name inside
      · intro name outside id' found
        by_cases same : name = dim_name
        · subst same
          rw [AList.lookup_insert] at found
          exact (Option.some_inj.mp found).symm
        · rw [AList.lookup_insert_ne same] at found
          exact held.inserted name outside id' found
  · exact held

theorem DimIds.insertDimensions {ids : Table Nat} (held : DimIds dims ids) (shape : OpShape)
    (l : List Nat) : DimIds dims (l.foldl (Problem.insertDimension shape) ids) := by
  induction l generalizing ids with
  | nil => exact held
  | cons id l ih => exact ih (held.insertDimension shape id)

theorem DimIds.reads {ids : Table Nat} (held : DimIds dims ids) (dim_name : String) :
    dims[(ids.lookup dim_name).getD 0]? = if dim_name ∈ dims then some dim_name else dims.head? := by
  have read := @getElem?_idOf dims _ (fun _ _ => lookup_nameToID) (fun _ => mem_nameToID) dim_name []
  rw [List.append_nil] at read
  split
  · next inside =>
    rw [held.declared dim_name inside, read, if_pos inside]
  · next outside =>
    have zero : (ids.lookup dim_name).getD 0 = 0 := by
      cases found : ids.lookup dim_name with
      | none => rfl
      | some id => exact held.inserted dim_name outside id found
    rw [zero, List.head?_eq_getElem?]

theorem commonDimension_reads {id new : Nat} (tables : Tables dims registered common)
    (call : commonDimension shape common id = .ok new) :
    dims[new]? = if ∃ name ∈ dims, shape.FactorizedDimensionIDToName[id]? = some name then
      shape.FactorizedDimensionIDToName[id]? else dims.head? := by
  unfold commonDimension at call
  split at call
  · next dim_name at_dim =>
    cases call
    rw [tables.dim_ids.reads dim_name, at_dim]
    simp only [Option.some.injEq, exists_eq_right']
  · cases call

theorem mem_coefficientNames : name ∈ shape.coefficientNames ↔ name ∈ shape.CoefficientNameToID := by
  rw [OpShape.coefficientNames, List.mem_insertionSort, AList.mem_keys]

theorem commonCoefficient_reads {id : Nat} {new : Option Nat} (formed : shape.WellFormed)
    (tables : Tables dims registered common) (call : commonCoefficient shape common id = .ok new)
    (own : id ≠ shape.NumCoefficients) :
    ∃ coefficient, new = some coefficient ∧
      coefficient < (registered ++ shape.coefficientNames).length ∧
      (registered ++ shape.coefficientNames)[coefficient]? =
        if ∃ name ∈ registered, shape.CoefficientIDToName[id]? = some name then
          shape.CoefficientIDToName[id]? else (registered ++ shape.coefficientNames).head? := by
  unfold commonCoefficient at call
  rw [if_neg own] at call
  split at call
  · next coeff_name at_coeff =>
    cases call
    have read := getElem?_idOf tables.found tables.known coeff_name shape.coefficientNames
    have some : ((registered ++ shape.coefficientNames)[
        (common.CoefficientNameToID.lookup coeff_name).getD 0]?).isSome := by
      rw [read]
      split
      · rfl
      · have inside : coeff_name ∈ shape.coefficientNames := by
          rw [mem_coefficientNames, ← formed.coefficients]
          exact List.mem_of_getElem? at_coeff
        rw [List.isSome_head?]
        exact List.append_ne_nil_of_right_ne_nil _ (List.ne_nil_of_mem inside)
    refine ⟨_, rfl, ?_, ?_⟩
    · obtain ⟨value, present⟩ := Option.isSome_iff_exists.mp some
      exact (List.getElem?_eq_some_iff.mp present).1
    · rw [read, at_coeff]
      simp only [Option.some.injEq, exists_eq_right']
  · cases call

/-- A term of an op reads back, once the op has registered its names, as `storedTerm` says. -/
theorem commonTerm_reads (formed : shape.WellFormed) (tables : Tables dims registered common)
    {new : Option Nat × Nat} (call : commonTerm shape common term = .ok new) :
    readTerm dims (registered ++ shape.coefficientNames) new =
        storedTerm dims registered shape.coefficientNames (shape.termNames term) ∧
      ∀ id, new.1 = some id → id < (registered ++ shape.coefficientNames).length := by
  obtain ⟨new_coeff_id, coefficient, call⟩ := bind_eq_ok.mp call
  obtain ⟨new_factorized_dim, dimension, result⟩ := bind_eq_ok.mp call
  cases result
  have dim := commonDimension_reads tables dimension
  by_cases none : term.1 = shape.NumCoefficients
  · rw [commonCoefficient, if_pos none] at coefficient
    cases coefficient
    refine ⟨Prod.ext ?_ dim, fun id same => by cases same⟩
    simp only [readTerm, storedTerm, OpShape.termNames, if_pos none, Option.map_none]
  · obtain ⟨id, rfl, bound, read⟩ := commonCoefficient_reads formed tables coefficient none
    refine ⟨Prod.ext ?_ dim, fun id same => by cases same; exact bound⟩
    simp only [readTerm, storedTerm, OpShape.termNames, if_neg none, Option.map_some, read]

structure Stored (dims coefficients : List String) (ds : List Declaration) (common : CommonShape) :
    Prop where
  absent : ∀ name, ds.find? (fun d => d.name = name) = none →
    common.DataSpaceNameToID.lookup name = none
  present : ∀ name d, ds.find? (fun d => d.name = name) = some d → ∃ id proj,
    common.DataSpaceNameToID.lookup name = some id ∧ common.Projections[id]? = some proj ∧
      ValidIds coefficients proj ∧ readProjection dims coefficients proj = d.stored dims

theorem Stored.append {coefficients : List String} (before : Stored dims coefficients ds common)
    (more : List String) : Stored dims (coefficients ++ more) ds common := by
  refine ⟨before.absent, fun name d found => ?_⟩
  obtain ⟨id, proj, named, placed, valid, read⟩ := before.present name d found
  exact ⟨id, proj, named, placed, valid.append more, by rw [readProjection_append valid, read]⟩

theorem newProjection_reads (formed : shape.WellFormed) (tables : Tables dims registered common)
    {space : DataSpace} {new_proj : List (List (Option Nat × Nat))}
    (call : space.projection.mapM (fun expr => expr.mapM (commonTerm shape common)) = .ok new_proj) :
    ValidIds (registered ++ shape.coefficientNames) new_proj ∧
      readProjection dims (registered ++ shape.coefficientNames) new_proj =
        (shape.declaration registered space).stored dims := by
  constructor
  · intro expr inside new member id same
    obtain ⟨terms, _, made⟩ := mem_of_mapM call inside
    obtain ⟨term, _, made⟩ := mem_of_mapM made member
    exact (commonTerm_reads formed tables made).2 id same
  · rw [Declaration.stored, OpShape.declaration, OpShape.expressions, readProjection, List.map_map]
    apply map_of_mapM call
    intro expr new_expr made
    rw [Function.comp_apply, List.map_map]
    exact map_of_mapM made fun term new made => (commonTerm_reads formed tables made).1

theorem addDataSpace_stored (formed : shape.WellFormed) (tables : Tables dims registered common)
    (stored : Stored dims (registered ++ shape.coefficientNames) ds common) {space : DataSpace}
    (call : addDataSpace shape common space = .ok common') :
    Tables dims registered common' ∧ Stored dims (registered ++ shape.coefficientNames)
      (ds ++ [shape.declaration registered space]) common' := by
  unfold addDataSpace at call
  split at call
  · next id known =>
    obtain ⟨_, _, result⟩ := bind_eq_ok.mp call
    cases result
    refine ⟨tables, fun name none => ?_, fun name d found => ?_⟩
    · rw [List.find?_append, Option.or_eq_none_iff] at none
      exact stored.absent name none.1
    · rw [List.find?_append] at found
      cases earlier : ds.find? fun d => d.name = name with
      | some e =>
        rw [earlier, Option.some_or] at found
        cases found
        exact stored.present name d earlier
      | none =>
        rw [earlier, Option.none_or] at found
        obtain rfl := List.mem_singleton.mp (List.mem_of_find?_eq_some found)
        have hit := List.find?_some found
        have same : space.name = name := of_decide_eq_true hit
        have none := stored.absent name earlier
        rw [← same, known] at none
        cases none
  · next unknown =>
    obtain ⟨new_proj, made, result⟩ := bind_eq_ok.mp call
    cases result
    obtain ⟨valid, read⟩ := newProjection_reads formed tables made
    refine ⟨⟨tables.dim_names, tables.dim_ids.insertDimensions shape _, tables.names, tables.found,
        tables.known⟩,
      fun name none => ?_, fun name d found => ?_⟩
    · rw [List.find?_append, Option.or_eq_none_iff] at none
      have apart : name ≠ space.name := by
        rintro rfl
        simp [OpShape.declaration] at none
      rw [AList.lookup_insert_ne apart]
      exact stored.absent name none.1
    · rw [List.find?_append] at found
      cases earlier : ds.find? fun d => d.name = name with
      | some e =>
        rw [earlier, Option.some_or] at found
        cases found
        obtain ⟨id, proj, named, placed, rest⟩ := stored.present name d earlier
        have apart : name ≠ space.name := by
          rintro rfl
          rw [unknown] at named
          cases named
        have bound := (List.getElem?_eq_some_iff.mp placed).1
        refine ⟨id, proj, ?_, ?_, rest⟩
        · rw [AList.lookup_insert_ne apart]
          exact named
        · rw [List.getElem?_append_left bound]
          exact placed
      | none =>
        rw [earlier, Option.none_or] at found
        obtain rfl := List.mem_singleton.mp (List.mem_of_find?_eq_some found)
        have hit := List.find?_some found
        have same : space.name = name := of_decide_eq_true hit
        subst same
        refine ⟨common.Projections.length, new_proj, AList.lookup_insert _, ?_, valid, read⟩
        rw [List.getElem?_append_right (Nat.le_refl _), Nat.sub_self]
        rfl

theorem addDataSpaces_stored (formed : shape.WellFormed) (tables : Tables dims registered common)
    (stored : Stored dims (registered ++ shape.coefficientNames) ds common)
    (call : shape.data_spaces.foldlM (addDataSpace shape) common = .ok common') :
    Tables dims registered common' ∧ Stored dims (registered ++ shape.coefficientNames)
      (ds ++ declarationsOf registered shape) common' := by
  apply foldlM_induction call (fun done common => Tables dims registered common ∧
    Stored dims (registered ++ shape.coefficientNames)
      (ds ++ done.map (shape.declaration registered)) common)
  · rw [List.map_nil, List.append_nil]
    exact ⟨tables, stored⟩
  · intro done space rest c c' _ before step
    obtain ⟨tables, stored⟩ := before
    have after := addDataSpace_stored formed tables stored step
    rw [List.map_append, ← List.append_assoc]
    exact after

theorem Tables.addCoefficient (tables : Tables dims registered common) (coeff_name : String) :
    Tables dims (registered ++ [coeff_name]) (addCoefficient common coeff_name) := by
  have names := tables.names
  constructor
  · exact tables.dim_names
  · exact tables.dim_ids
  · rw [Problem.addCoefficient, names]
  · intro name id read
    rw [Problem.addCoefficient] at read
    by_cases same : name = coeff_name
    · subst same
      rw [AList.lookup_insert, names] at read
      cases read
      rw [List.getElem?_append_right (Nat.le_refl _), Nat.sub_self]
      rfl
    · rw [AList.lookup_insert_ne same] at read
      have value := tables.found name id read
      rw [List.getElem?_append_left (List.getElem?_eq_some_iff.mp value).1]
      exact value
  · intro name
    rw [Problem.addCoefficient, AList.mem_insert, tables.known, List.mem_append, List.mem_singleton,
      or_comm]

theorem addCoefficients_stored (names : List String) (tables : Tables dims registered common)
    (stored : Stored dims (registered ++ names) ds common) :
    Tables dims (registered ++ names) (names.foldl addCoefficient common) ∧
      Stored dims (registered ++ names) ds (names.foldl addCoefficient common) := by
  induction names generalizing registered common with
  | nil =>
    rw [List.append_nil] at stored ⊢
    exact ⟨tables, stored⟩
  | cons coeff_name names ih =>
    have regroup : registered ++ coeff_name :: names = (registered ++ [coeff_name]) ++ names := by
      simp
    rw [regroup] at stored ⊢
    rw [List.foldl_cons]
    exact ih (tables.addCoefficient coeff_name) ⟨stored.absent, stored.present⟩

theorem addShape_stored (formed : shape.WellFormed) (tables : Tables dims registered common)
    (stored : Stored dims registered ds common) (call : addShape common shape = .ok common') :
    Tables dims (registered ++ shape.coefficientNames) common' ∧
      Stored dims (registered ++ shape.coefficientNames) (ds ++ declarationsOf registered shape)
        common' := by
  obtain ⟨_, _, call⟩ := bind_eq_ok.mp call
  obtain ⟨common'', spaces, result⟩ := bind_eq_ok.mp call
  cases result
  have after := addDataSpaces_stored formed tables (stored.append shape.coefficientNames) spaces
  exact addCoefficients_stored shape.coefficientNames after.1 after.2

theorem addSuccessfully_eq_ok {workloads workloads' : Workloads} {op : String × OpWorkload}
    (call : addSuccessfully workloads op = .ok workloads') :
    op.1 ∉ workloads.workloads_ ∧
      workloads'.workloads_ = workloads.workloads_.insert op.1 op.2 ∧
      addShape workloads.common_shape_ op.2.shape = .ok workloads'.common_shape_ := by
  obtain ⟨⟨after, added⟩, call, rest⟩ := bind_eq_ok.mp call
  obtain ⟨_, asserted, result⟩ := bind_eq_ok.mp rest
  cases result
  have success : added = true := tileexpAssert_eq_ok.mp asserted
  unfold add_workload at call
  split at call
  · cases call
    cases success
  · next fresh =>
    obtain ⟨common_shape_, shaped, result⟩ := bind_eq_ok.mp call
    cases result
    exact ⟨fresh, rfl, shaped⟩

theorem run_stored {ops : List (String × OpWorkload)} {workloads : Workloads}
    (formed : ∀ op ∈ ops, op.2.shape.WellFormed)
    (run : ops.foldlM addSuccessfully (set_dims dims) = .ok workloads) :
    Tables dims (registeredBy (ops.map fun op => op.2.shape)) workloads.common_shape_ ∧
      Stored dims (registeredBy (ops.map fun op => op.2.shape))
        (declarations [] (ops.map fun op => op.2.shape)) workloads.common_shape_ := by
  apply foldlM_induction run (fun done workloads =>
    Tables dims (registeredBy (done.map fun op => op.2.shape)) workloads.common_shape_ ∧
      Stored dims (registeredBy (done.map fun op => op.2.shape))
        (declarations [] (done.map fun op => op.2.shape)) workloads.common_shape_)
  · refine ⟨⟨rfl, dimIds_nameToID dims, rfl, fun name id read => ?_, fun name => ?_⟩, fun _ _ => rfl,
      fun name d found => ?_⟩
    · cases read
    · exact iff_of_false (AList.notMem_empty name) List.not_mem_nil
    · cases found
  · intro done op rest w w' split before step
    have shape_formed := formed op (split ▸ List.mem_append_right done List.mem_cons_self)
    obtain ⟨_, _, shaped⟩ := addSuccessfully_eq_ok step
    have after := addShape_stored shape_formed before.1 before.2 shaped
    have names : registeredBy ((done ++ [op]).map fun op => op.2.shape) =
        registeredBy (done.map fun op => op.2.shape) ++ op.2.shape.coefficientNames := by
      simp [registeredBy]
    have spaces : declarations [] ((done ++ [op]).map fun op => op.2.shape) =
        declarations [] (done.map fun op => op.2.shape) ++
          declarationsOf (registeredBy (done.map fun op => op.2.shape)) op.2.shape := by
      rw [List.map_append, declarations_append, List.nil_append]
      simp [declarations]
    rw [names, spaces]
    exact after

/-! Which names of dimensions the table has. -/

theorem mem_insertDimension {ids : Table Nat} {id : Nat} {dim_name : String}
    (member : dim_name ∈ insertDimension shape ids id) :
    dim_name ∈ ids ∨ dim_name ∈ shape.FactorizedDimensionIDToName := by
  unfold insertDimension at member
  split at member
  · next name at_id =>
    split at member
    · exact Or.inl member
    · rcases (AList.mem_insert _).mp member with rfl | earlier
      · exact Or.inr (List.mem_of_getElem? at_id)
      · exact Or.inl earlier
  · exact Or.inl member

theorem mem_addDataSpace {space : DataSpace} {dim_name : String}
    (call : addDataSpace shape common space = .ok common')
    (member : dim_name ∈ common'.FactorizedDimensionNameToID) :
    dim_name ∈ common.FactorizedDimensionNameToID ∨
      dim_name ∈ shape.FactorizedDimensionIDToName := by
  unfold addDataSpace at call
  split at call
  · obtain ⟨_, _, result⟩ := bind_eq_ok.mp call
    cases result
    exact Or.inl member
  · obtain ⟨new_proj, _, result⟩ := bind_eq_ok.mp call
    cases result
    simp only at member
    generalize space.projection.flatten.map Prod.snd = l at member
    generalize common.FactorizedDimensionNameToID = ids at member ⊢
    induction l generalizing ids with
    | nil => exact Or.inl member
    | cons id l ih =>
      rcases ih _ member with inserted | own
      · exact mem_insertDimension inserted
      · exact Or.inr own

theorem mem_addShape {dim_name : String} (call : addShape common shape = .ok common')
    (member : dim_name ∈ common'.FactorizedDimensionNameToID) :
    dim_name ∈ common.FactorizedDimensionNameToID ∨
      dim_name ∈ shape.FactorizedDimensionIDToName := by
  obtain ⟨_, _, call⟩ := bind_eq_ok.mp call
  obtain ⟨common'', spaces, result⟩ := bind_eq_ok.mp call
  cases result
  have same (names : List String) (c : CommonShape) :
      (names.foldl addCoefficient c).FactorizedDimensionNameToID =
        c.FactorizedDimensionNameToID := by
    induction names generalizing c with
    | nil => rfl
    | cons name names ih => exact (ih _).trans rfl
  rw [same] at member
  refine foldlM_induction spaces (fun _ c => dim_name ∈ c.FactorizedDimensionNameToID →
    dim_name ∈ common.FactorizedDimensionNameToID ∨ dim_name ∈ shape.FactorizedDimensionIDToName)
    Or.inl (fun _ _ _ _ _ _ before step inside => ?_) member
  exact (mem_addDataSpace step inside).elim before Or.inr

theorem run_dimensions {ops : List (String × OpWorkload)} {workloads : Workloads}
    (run : ops.foldlM addSuccessfully (set_dims dims) = .ok workloads) {dim_name : String}
    (member : dim_name ∈ workloads.common_shape_.FactorizedDimensionNameToID) :
    dim_name ∈ dims ∨ ∃ op ∈ ops, dim_name ∈ op.2.shape.FactorizedDimensionIDToName := by
  revert member
  refine foldlM_induction run (fun done workloads =>
    dim_name ∈ workloads.common_shape_.FactorizedDimensionNameToID → dim_name ∈ dims ∨
      ∃ op ∈ done, dim_name ∈ op.2.shape.FactorizedDimensionIDToName)
    (fun member => Or.inl (mem_nameToID.mp member)) ?_
  intro done op rest w w' _ before step member
  obtain ⟨_, _, shaped⟩ := addSuccessfully_eq_ok step
  rcases mem_addShape shaped member with earlier | own
  · rcases before earlier with declared | ⟨op', inside, named⟩
    · exact Or.inl declared
    · exact Or.inr ⟨op', List.mem_append_left _ inside, named⟩
  · exact Or.inr ⟨op, by simp, own⟩

/-! When everything reads back as declared. -/

/-- The names of a term are known when it is stored: its dimension is declared, and its coefficient
    is registered by an earlier op, or gets the id 0 from its own. -/
def TermKnown (dims registered added : List String) (term : TermNames) : Prop :=
  (∃ dim_name ∈ dims, term.2 = some dim_name) ∧ ∀ coeff_name, term.1 = some (some coeff_name) →
    coeff_name ∈ registered ∨ registered = [] ∧ added.head? = some coeff_name

/-- A data space is the first of its name and all its names are known, or it has the projection of
    the first one. -/
def Declaration.SoundAfter (dims : List String) (earlier : List Declaration) (d : Declaration) :
    Prop :=
  match earlier.find? fun e => e.name = d.name with
  | some first => first.expressions = d.expressions
  | none => ∀ expr ∈ d.expressions, ∀ term ∈ expr, TermKnown dims d.registered d.added term

def SoundOps (dims : List String) (shapes : List OpShape) : Prop :=
  ∀ earlier d later, declarations [] shapes = earlier ++ d :: later → d.SoundAfter dims earlier

def TermNamed (added : List String) (term : TermNames) : Prop :=
  ∀ coefficient, term.1 = some coefficient → ∃ coeff_name ∈ added, coefficient = some coeff_name

theorem storedTerm_eq_iff {term : TermNames} (named : TermNamed added term)
    (dim : ∃ dim_name, term.2 = some dim_name) :
    storedTerm dims registered added term = term ↔ TermKnown dims registered added term := by
  obtain ⟨coefficient, dimension⟩ := term
  obtain ⟨dim_name, rfl⟩ := dim
  have dims_part : (if ∃ name ∈ dims, some dim_name = some name then some dim_name else dims.head?) =
      some dim_name ↔ ∃ name ∈ dims, some dim_name = some name := by
    constructor
    · intro same
      by_contra outside
      rw [if_neg outside] at same
      exact outside ⟨dim_name, List.mem_of_mem_head? same, rfl⟩
    · exact fun inside => if_pos inside
  rw [storedTerm, Prod.mk.injEq, dims_part, TermKnown, and_comm]
  apply and_congr_right
  intro _
  cases coefficient with
  | none => simp
  | some coefficient =>
    obtain ⟨coeff_name, inside, rfl⟩ := named coefficient rfl
    simp only [Option.map_some, Option.some.injEq, exists_eq_right', forall_eq']
    constructor
    · intro same
      by_cases known : coeff_name ∈ registered
      · exact Or.inl known
      · rw [if_neg known] at same
        cases registered with
        | nil => exact Or.inr ⟨rfl, same⟩
        | cons first rest =>
          rw [List.cons_append, List.head?_cons, Option.some_inj] at same
          exact absurd (same ▸ List.mem_cons_self) known
    · rintro (known | ⟨rfl, first⟩)
      · exact if_pos known
      · rw [if_neg List.not_mem_nil]
        exact first

end TileExp.Problem
