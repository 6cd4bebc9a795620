import Latias.Problem.Readback

/-! When the common shape represents every op. -/

namespace TileExp.Problem

open Checked

variable {dims registered : List String} {shape : OpShape} {shapes : List OpShape} {d : Declaration}
  {space : DataSpace} {ops : List (String × OpWorkload)} {workloads : Workloads}

theorem mem_declarations (member : d ∈ declarations registered shapes) :
    ∃ shape ∈ shapes, ∃ space ∈ shape.data_spaces, ∃ before, d = shape.declaration before space := by
  induction shapes generalizing registered with
  | nil => cases member
  | cons shape shapes ih =>
    rw [declarations, List.mem_append] at member
    rcases member with here | later
    · obtain ⟨space, inside, rfl⟩ := List.mem_map.mp here
      exact ⟨shape, List.mem_cons_self, space, inside, registered, rfl⟩
    · obtain ⟨other, inside, rest⟩ := ih later
      exact ⟨other, List.mem_cons_of_mem shape inside, rest⟩

theorem exists_declaration (inside : shape ∈ shapes) (member : space ∈ shape.data_spaces) :
    ∃ before, shape.declaration before space ∈ declarations registered shapes := by
  induction shapes generalizing registered with
  | nil => cases inside
  | cons first shapes ih =>
    rw [declarations]
    rcases List.mem_cons.mp inside with rfl | later
    · exact ⟨registered, List.mem_append_left _ (List.mem_map_of_mem member)⟩
    · obtain ⟨before, found⟩ := @ih (registered ++ first.coefficientNames) later
      exact ⟨before, List.mem_append_right _ found⟩

theorem termNames_named (formed : shape.WellFormed) (member : space ∈ shape.data_spaces)
    {expr : List TermNames} (inside : expr ∈ shape.expressions space) {term : TermNames}
    (at_term : term ∈ expr) :
    TermNamed shape.coefficientNames term ∧ ∃ dim_name, term.2 = some dim_name := by
  obtain ⟨ids, in_projection, rfl⟩ := List.mem_map.mp inside
  obtain ⟨id, in_expr, rfl⟩ := List.mem_map.mp at_term
  obtain ⟨coefficient_bound, dim_bound⟩ := formed.terms space member ids in_projection id in_expr
  constructor
  · intro coefficient has
    rw [OpShape.termNames] at has
    split at has
    · cases has
    · next named =>
      cases has
      have bound : id.1 < shape.CoefficientIDToName.length :=
        Nat.lt_of_le_of_ne coefficient_bound named
      refine ⟨shape.CoefficientIDToName[id.1], ?_, List.getElem?_eq_getElem bound⟩
      rw [mem_coefficientNames, ← formed.coefficients]
      exact List.getElem_mem bound
  · exact ⟨_, List.getElem?_eq_getElem dim_bound⟩

theorem map_eq_self_iff {α : Type} {f : α → α} {l : List α} : l.map f = l ↔ ∀ a ∈ l, f a = a := by
  have id_map := List.map_inj_left (l := l) (f := f) (g := id)
  rwa [List.map_id] at id_map

theorem stored_eq_iff (formed : shape.WellFormed) (member : space ∈ shape.data_spaces) :
    (shape.declaration registered space).stored dims = shape.expressions space ↔
      ∀ expr ∈ shape.expressions space, ∀ term ∈ expr,
        TermKnown dims registered shape.coefficientNames term := by
  rw [Declaration.stored, OpShape.declaration, map_eq_self_iff]
  apply forall₂_congr
  intro expr inside
  rw [map_eq_self_iff]
  apply forall₂_congr
  intro term at_term
  obtain ⟨named, dim⟩ := termNames_named formed member inside at_term
  exact storedTerm_eq_iff named dim

/-- What a data space reads back as is what was stored first under its name. -/
theorem represents_iff (formed : ∀ op ∈ ops, op.2.shape.WellFormed)
    (run : ops.foldlM addSuccessfully (set_dims dims) = .ok workloads) (shape : OpShape)
    (space : DataSpace) : Represents workloads.common_shape_ shape space ↔
      ∃ first, (declarations [] (ops.map fun op => op.2.shape)).find?
        (fun e => e.name = space.name) = some first ∧
          first.stored dims = shape.expressions space := by
  obtain ⟨tables, stored⟩ := run_stored formed run
  have reads (proj : List (List (Option Nat × Nat))) :
      workloads.common_shape_.expressions proj =
        readProjection dims (registeredBy (ops.map fun op => op.2.shape)) proj := by
    rw [CommonShape.expressions, tables.dim_names, tables.names]
  constructor
  · rintro ⟨id, proj, named, placed, same⟩
    cases found : (declarations [] (ops.map fun op => op.2.shape)).find?
        (fun e => e.name = space.name) with
    | none =>
      rw [stored.absent space.name found] at named
      cases named
    | some first =>
      obtain ⟨id', proj', named', placed', _, read⟩ := stored.present space.name first found
      rw [named] at named'
      cases named'
      rw [placed] at placed'
      cases placed'
      exact ⟨first, rfl, by rw [← read, ← reads, same]⟩
  · rintro ⟨first, found, same⟩
    obtain ⟨id, proj, named, placed, _, read⟩ := stored.present space.name first found
    exact ⟨id, proj, named, placed, by rw [reads, read, same]⟩

def RepresentsAll (workloads : Workloads) (ops : List (String × OpWorkload)) : Prop :=
  ∀ op ∈ ops, ∀ space ∈ op.2.shape.data_spaces,
    Represents workloads.common_shape_ op.2.shape space

theorem representsAll_iff (formed : ∀ op ∈ ops, op.2.shape.WellFormed)
    (run : ops.foldlM addSuccessfully (set_dims dims) = .ok workloads) :
    RepresentsAll workloads ops ↔ SoundOps dims (ops.map fun op => op.2.shape) := by
  have listed : RepresentsAll workloads ops ↔
      ∀ d ∈ declarations [] (ops.map fun op => op.2.shape), ∃ first,
        (declarations [] (ops.map fun op => op.2.shape)).find? (fun e => e.name = d.name) =
          some first ∧ first.stored dims = d.expressions := by
    constructor
    · intro all d member
      obtain ⟨shape, inside, space, at_space, before, rfl⟩ := mem_declarations member
      obtain ⟨op, at_op, rfl⟩ := List.mem_map.mp inside
      exact (represents_iff formed run _ _).mp (all op at_op space at_space)
    · intro all op at_op space at_space
      have inside : op.2.shape ∈ ops.map fun op => op.2.shape := List.mem_map_of_mem at_op
      obtain ⟨before, member⟩ := @exists_declaration [] _ _ _ inside at_space
      exact (represents_iff formed run _ _).mpr (all _ member)
  rw [listed, Keys.first_expected_iff]
  apply forall_congr'
  intro earlier
  apply forall₃_congr
  intro d later split
  have member : d ∈ declarations [] (ops.map fun op => op.2.shape) := by
    rw [split]
    exact List.mem_append_right earlier List.mem_cons_self
  obtain ⟨shape, inside, space, at_space, before, rfl⟩ := mem_declarations member
  obtain ⟨op, at_op, rfl⟩ := List.mem_map.mp inside
  rw [Declaration.SoundAfter]
  cases earlier.find? fun e => e.name = (op.2.shape.declaration before space).name with
  | some first => exact Iff.rfl
  | none => exact stored_eq_iff (formed op at_op) at_space

theorem SoundOps.of_append {a b : List OpShape} (sound : SoundOps dims (a ++ b)) :
    SoundOps dims a := by
  intro earlier d later split
  apply sound earlier d (later ++ declarations ([] ++ registeredBy a) b)
  rw [declarations_append, split, List.append_assoc, List.cons_append]

/-- After each op of a sequence, the common shape represents all data spaces so far as their ops
    have them, just when every data space is sound after those before it. -/
theorem common_shape_represents_iff
    (parsed : ∀ op ∈ ops, ∃ config, Parse config = .ok op.2.shape)
    (run : ops.foldlM addSuccessfully (set_dims dims) = .ok workloads) :
    (∀ done rest between, ops = done ++ rest →
        done.foldlM addSuccessfully (set_dims dims) = .ok between → RepresentsAll between done) ↔
      SoundOps dims (ops.map fun op => op.2.shape) := by
  have formed : ∀ op ∈ ops, op.2.shape.WellFormed := by
    intro op member
    obtain ⟨config, call⟩ := parsed op member
    exact Parse_wellFormed call
  constructor
  · intro all
    exact (representsAll_iff formed run).mp (all ops [] workloads (List.append_nil ops).symm run)
  · rintro sound done rest between rfl call
    rw [List.map_append] at sound
    exact (representsAll_iff (fun op member => formed op (List.mem_append_left rest member)) call).mpr
      sound.of_append

def strided : ShapeConfig where
  dimensions := ["P"]
  coefficients := ["a", "b"]
  flatten := none
  data_spaces := [⟨"I", .list [[["P", "b"]]]⟩]

def stridedShape : OpShape where
  FactorizedDimensionIDToName := ["P"]
  FactorizedDimensionNameToID := nameToID ["P"]
  FlattenedDimensionIDToName := ["P"]
  CoefficientIDToName := ["a", "b"]
  CoefficientNameToID := nameToID ["a", "b"]
  data_spaces := [⟨"I", 1, [[(1, 0)]]⟩]

/-- The stride b reads back as a. -/
theorem strided_reads_other_coefficient :
    ∃ workloads, Parse strided = .ok stridedShape ∧
      [("pool", ⟨⟨["I"], "O"⟩, stridedShape⟩)].foldlM addSuccessfully (set_dims ["P"]) =
        .ok workloads ∧
      ¬ ∀ done rest between, [("pool", ⟨⟨["I"], "O"⟩, stridedShape⟩)] = done ++ rest →
        done.foldlM addSuccessfully (set_dims ["P"]) = .ok between → RepresentsAll between done := by
  have completed : ([("pool", (⟨⟨["I"], "O"⟩, stridedShape⟩ : OpWorkload))].foldlM addSuccessfully
      (set_dims ["P"])).isOk = true := by
    decide +kernel
  obtain ⟨workloads, run⟩ := exists_of_isOk completed
  have parsed : Parse strided = .ok stridedShape := rfl
  refine ⟨workloads, parsed, run, fun all => ?_⟩
  have formed : ∀ op ∈ [("pool", (⟨⟨["I"], "O"⟩, stridedShape⟩ : OpWorkload))],
      op.2.shape.WellFormed := by
    intro op member
    cases List.mem_singleton.mp member
    exact Parse_wellFormed parsed
  have represented := all _ [] workloads (List.append_nil _).symm run _ List.mem_cons_self
    ⟨"I", 1, [[(1, 0)]]⟩ List.mem_cons_self
  obtain ⟨first, found, same⟩ := (represents_iff formed run _ _).mp represented
  have other : ((declarations [] [stridedShape]).find? (fun e => e.name = "I")).map
      (Declaration.stored ["P"]) ≠ some (stridedShape.expressions ⟨"I", 1, [[(1, 0)]]⟩) := by
    decide +kernel
  apply other
  rw [← same]
  exact congrArg (Option.map (Declaration.stored ["P"])) found

def sliding : ShapeConfig where
  dimensions := ["P", "R"]
  coefficients := ["s"]
  flatten := none
  data_spaces := [⟨"I", .list [[["P", "s"], ["R"]]]⟩, ⟨"O", .array ["P"]⟩]

theorem common_shape_represents_iff_sliding :
    ∃ shape workloads, Parse sliding = .ok shape ∧
      [("conv", ⟨⟨["I"], "O"⟩, shape⟩)].foldlM addSuccessfully (set_dims ["P", "R"]) =
        .ok workloads ∧
      ((∀ done rest between, [("conv", ⟨⟨["I"], "O"⟩, shape⟩)] = done ++ rest →
          done.foldlM addSuccessfully (set_dims ["P", "R"]) = .ok between →
            RepresentsAll between done) ↔ SoundOps ["P", "R"] [shape]) := by
  have completed : (do
      let shape ← Parse sliding
      [("conv", (⟨⟨["I"], "O"⟩, shape⟩ : OpWorkload))].foldlM addSuccessfully
        (set_dims ["P", "R"])).isOk = true := by
    decide +kernel
  obtain ⟨workloads, run⟩ := exists_of_isOk completed
  obtain ⟨shape, parsed, run⟩ := bind_eq_ok.mp run
  refine ⟨shape, workloads, parsed, run, common_shape_represents_iff (fun op member => ?_) run⟩
  cases List.mem_singleton.mp member
  exact ⟨sliding, parsed⟩

end TileExp.Problem
