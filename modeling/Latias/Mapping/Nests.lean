import Latias.Library.Checked
import Latias.Mapping.ParseNode

/-! The loops of parsed nodes: whether they are those of the factors. -/

namespace TileExp.Mapping

open Checked TileExp.Symbol

structure Nest where
  loops : List Loop
  storage_tiling_boundaries : List Nat
  deriving DecidableEq, Repr

namespace TileNode

def resolveLoop (symbol_table_ : Option SymbolTable) (loop : Loop) : Exec Loop :=
  if loop.end_ ≤ 0 then
    match symbol_table_ with
    | none => .error (.assertion "symbol_table_")
    | some table => do
      let entry ← table.lookup loop.end_
      .ok { loop with end_ := entry.value_, residual_end := entry.value_ }
  else .ok loop

def spacetimeAssertion : String := "type_ and spacetime_dimension"

def addLoop (tile : TileNode) (symbol_table_ : Option SymbolTable) (loops : List Loop) (loop : Loop) :
    Exec (List Loop) := do
  let loop ← resolveLoop symbol_table_ loop
  if loop.start + loop.stride < loop.end_ then do
    tileexpAssert ((tile.type_ = .Spatial ∧ IsSpatial loop.spacetime_dimension = true) ∨
      (tile.type_ = .Temporal ∧ IsSpatial loop.spacetime_dimension = false)) spacetimeAssertion
    .ok (loops ++ [loop])
  else .ok loops

def constructLoopNest (tile : TileNode) (symbol_table_ : Option SymbolTable) : Exec Nest := do
  let loops ← tile.loopnests_.foldlM (tile.addLoop symbol_table_) []
  let dummy : Loop :=
    { name_ := "", start := 0, end_ := 1, residual_end := 1, stride := 1, dimension := 0
      spacetime_dimension := if tile.type_ = .Spatial then .SpaceX else .Time }
  let loops := if loops = [] then [dummy] else loops
  .ok ⟨loops, [loops.length - 1]⟩

end TileNode

section Loops

variable {g : Globals} {config : NodeConfig} {loop_bounds : LoopBounds}
  {spacetime : Nat → Nat → Dimension} {loops : List Loop}

/-- The loops of the factors: of each dimension one, in the reverse of the order of `iters`, with the
    bounds of the factors. -/
structure WellFormed (iters : List String) (loop_bounds : LoopBounds) (loops : List Loop) : Prop where
  order : loops.map (fun loop => loop.name_) = iters.reverse
  once : (loops.map fun loop => loop.name_).Perm loop_bounds.keys
  bounds : ∀ loop ∈ loops, loop_bounds.lookup loop.name_ = some (loop.end_, loop.residual_end)

theorem makeLoop_eq_ok {spacetime : Nat → Dimension} {iter : String × Nat} {loop : Loop}
    (made : makeLoop g loop_bounds spacetime iter = .ok loop) :
    loop.name_ = iter.1 ∧
      (loop.end_, loop.residual_end) = (loop_bounds.lookup iter.1).getD (0, 0) ∧
      loop.spacetime_dimension = spacetime iter.2 := by
  rw [makeLoop] at made
  cases known : g.workloads_.common_shape_.FactorizedDimensionNameToID iter.1 with
  | none =>
    rw [known] at made
    cases made
  | some dimension =>
    rw [known] at made
    cases made
    exact ⟨rfl, rfl, rfl⟩

theorem parseLoops_eq_ok (parsed : parseLoops g config loop_bounds spacetime = .ok loops) :
    (iterNames g config loop_bounds).length = loop_bounds.keys.length ∧
      ∃ split, (iterNames g config loop_bounds).zipIdx.reverse.mapM
        (makeLoop g loop_bounds (spacetime split)) = .ok loops := by
  rw [parseLoops] at parsed
  obtain ⟨_, sizes, parsed⟩ := bind_eq_ok.mp parsed
  obtain ⟨split, _, made⟩ := bind_eq_ok.mp parsed
  exact ⟨tileexpAssert_eq_ok.mp sizes, split, made⟩

theorem parseLoops_names (parsed : parseLoops g config loop_bounds spacetime = .ok loops) :
    loops.map (fun loop => loop.name_) = (iterNames g config loop_bounds).reverse := by
  obtain ⟨_, split, made⟩ := parseLoops_eq_ok parsed
  have names := map_of_mapM (g := Prod.fst) (h := fun loop : Loop => loop.name_) made
    fun _ _ one => (makeLoop_eq_ok one).1
  rw [names, List.map_reverse, List.zipIdx_map_fst]

theorem iterNames_perm (none : config.permutation.lookupValue = none) :
    (iterNames g config loop_bounds).Perm loop_bounds.keys := by
  rw [iterNames, none]
  exact g.keyOrder.perm loop_bounds.keys

theorem wellFormed_iff (parsed : parseLoops g config loop_bounds spacetime = .ok loops) :
    WellFormed (iterNames g config loop_bounds) loop_bounds loops ↔
      ∀ buffer, config.permutation.lookupValue = some buffer →
        ∀ dimension ∈ loop_bounds, dimension ∈ ParsePermutations buffer := by
  have names := parseLoops_names parsed
  obtain ⟨sizes, split, made⟩ := parseLoops_eq_ok parsed
  constructor
  · intro formed buffer given dimension member
    have inside : dimension ∈ (iterNames g config loop_bounds).reverse :=
      names ▸ formed.once.mem_iff.mpr (AList.mem_keys.mp member)
    rw [iterNames, given] at inside
    exact List.mem_reverse.mp inside
  · intro all
    have within : loop_bounds.keys ⊆ iterNames g config loop_bounds := by
      intro dimension member
      cases given : config.permutation.lookupValue with
      | none => exact (iterNames_perm given).mem_iff.mpr member
      | some buffer =>
        rw [iterNames, given]
        exact all buffer given dimension (AList.mem_keys.mpr member)
    have same : (iterNames g config loop_bounds).Perm loop_bounds.keys :=
      ((List.subperm_of_subset loop_bounds.keys_nodup within).perm_of_length_le
        (Nat.le_of_eq sizes)).symm
    refine ⟨names, ?_, ?_⟩
    · rw [names]
      exact (List.reverse_perm _).trans same
    · intro loop member
      obtain ⟨iter, inside, one⟩ := mem_of_mapM made member
      obtain ⟨name, bounds, _⟩ := makeLoop_eq_ok one
      have known : loop.name_ ∈ loop_bounds.keys := by
        have among : loop.name_ ∈ loops.map fun loop => loop.name_ := List.mem_map_of_mem member
        rw [names, List.mem_reverse] at among
        exact same.mem_iff.mp among
      obtain ⟨value, found⟩ := Option.isSome_iff_exists.mp
        (AList.lookup_isSome.mpr (AList.mem_keys.mpr known))
      rw [← name, found, Option.getD_some] at bounds
      rw [found, bounds]

end Loops

section Tiles

variable {g : Globals} {config : NodeConfig} {table table' : SymbolTable} {loop_bounds : LoopBounds}
  {tile : TileNode} {op : OpNode}

theorem TileNode.construct_eq_ok (made : TileNode.construct g table config = .ok (table', tile)) :
    ∃ loop_bounds, parseTileType (tileTypeName config) = .ok tile.type_ ∧
      parseLoopBounds g table config = .ok (table', loop_bounds) ∧
      parseLoops g config loop_bounds (fun split i =>
        if tileTypeName config = "spatial" then (if i < split then .SpaceX else .SpaceY) else .Time) =
          .ok tile.loopnests_ := by
  rw [TileNode.construct] at made
  obtain ⟨node, _, made⟩ := bind_eq_ok.mp made
  obtain ⟨type_, typed, made⟩ := bind_eq_ok.mp made
  obtain ⟨⟨table₁, loop_bounds⟩, bounded, made⟩ := bind_eq_ok.mp made
  obtain ⟨loops, looped, made⟩ := bind_eq_ok.mp made
  cases made
  exact ⟨loop_bounds, typed, bounded, looped⟩

theorem OpNode.construct_eq_ok (made : OpNode.construct g table config = .ok (table', op)) :
    ∃ node loop_bounds, NodeBase.construct g .Op config = .ok node ∧
      config.name.lookupValue = some op.op_name_ ∧ op.name_ = node.name_ ++ "::" ++ op.op_name_ ∧
      parseLoopBounds g table config = .ok (table', loop_bounds) ∧
      table.get_num_variables = table'.get_num_variables ∧
      parseLoops g config loop_bounds (fun _ _ => .Time) = .ok op.loopnests_ ∧
      g.workloads_.get_workload op.op_name_ = .ok op.p_workload := by
  rw [OpNode.construct] at made
  obtain ⟨node, based, made⟩ := bind_eq_ok.mp made
  cases named : config.name.lookupValue with
  | none =>
    rw [named] at made
    cases made
  | some op_name_ =>
    rw [named] at made
    obtain ⟨⟨table₁, loop_bounds⟩, bounded, made⟩ := bind_eq_ok.mp made
    obtain ⟨_, declared, made⟩ := bind_eq_ok.mp made
    obtain ⟨loops, looped, made⟩ := bind_eq_ok.mp made
    obtain ⟨workload, listed, made⟩ := bind_eq_ok.mp made
    cases made
    exact ⟨node, loop_bounds, based, rfl, rfl, bounded, tileexpAssert_eq_ok.mp declared, looped, listed⟩

def TileNode.Agrees (tile : TileNode) : Prop :=
  ∀ loop ∈ tile.loopnests_, IsSpatial loop.spacetime_dimension = true ↔ tile.type_ = .Spatial

theorem parseTileType_eq_ok {type_s : String} {type_ : TileType}
    (typed : parseTileType type_s = .ok type_) :
    (contains type_s "temp" = true ∧ type_ = .Temporal) ∨
      (contains type_s "temp" = false ∧ type_ = .Spatial) := by
  rw [parseTileType] at typed
  split at typed
  · next temporal =>
    cases typed
    exact Or.inl ⟨temporal, rfl⟩
  · next other =>
    split at typed
    · cases typed
      exact Or.inr ⟨Bool.eq_false_of_not_eq_true other, rfl⟩
    · cases typed

/-- The type is found by a substring and `spacetime_dimension` by equality. -/
theorem TileNode.agrees_iff (made : TileNode.construct g table config = .ok (table', tile)) :
    tile.Agrees ↔ contains (tileTypeName config) "temp" = true ∨
      tileTypeName config = "spatial" ∨ tile.loopnests_ = [] := by
  obtain ⟨loop_bounds, typed, _, looped⟩ := construct_eq_ok made
  obtain ⟨_, split, rounds⟩ := parseLoops_eq_ok looped
  have dimension : ∀ loop ∈ tile.loopnests_,
      IsSpatial loop.spacetime_dimension = decide (tileTypeName config = "spatial") := by
    intro loop member
    obtain ⟨iter, _, one⟩ := mem_of_mapM rounds member
    rw [(makeLoop_eq_ok one).2.2]
    by_cases spatial : tileTypeName config = "spatial"
    · rw [if_pos spatial, decide_eq_true spatial]
      split <;> rfl
    · rw [if_neg spatial, decide_eq_false spatial]
      rfl
  rcases parseTileType_eq_ok typed with ⟨temporal, type_⟩ | ⟨other, type_⟩
  · refine ⟨fun _ => Or.inl temporal, fun _ loop member => ?_⟩
    have apart : tileTypeName config ≠ "spatial" := by
      intro spatial
      rw [spatial] at temporal
      exact absurd temporal (by decide)
    rw [dimension loop member, decide_eq_false apart, type_]
    decide
  · rw [other]
    simp only [Bool.false_eq_true, false_or]
    constructor
    · intro agrees
      by_cases none : tile.loopnests_ = []
      · exact Or.inr none
      · left
        obtain ⟨loop, member⟩ := List.exists_mem_of_ne_nil _ none
        have spatial := (agrees loop member).mpr type_
        rw [dimension loop member] at spatial
        exact of_decide_eq_true spatial
    · rintro (spatial | none) loop member
      · rw [dimension loop member, decide_eq_true spatial, type_]
        simp
      · rw [none] at member
        cases member

theorem TileNode.stops_resolveLoop (symbol_table_ : Option SymbolTable) (loop : Loop) :
    Checked.Stops (· ≠ .assertion spacetimeAssertion) (resolveLoop symbol_table_ loop) := by
  unfold resolveLoop
  split
  · cases symbol_table_ with
    | none => exact stops_error (by decide)
    | some table =>
      apply Checked.Stops.bind
      · rw [SymbolTable.lookup]
        split
        · exact stops_ok _
        · exact stops_error (by decide)
      · exact fun entry _ => stops_ok _
  · exact stops_ok loop

theorem TileNode.resolveLoop_dimension {symbol_table_ : Option SymbolTable} {loop loop' : Loop}
    (made : resolveLoop symbol_table_ loop = .ok loop') :
    loop'.spacetime_dimension = loop.spacetime_dimension := by
  unfold resolveLoop at made
  split at made
  · cases symbol_table_ with
    | none => cases made
    | some table =>
      obtain ⟨entry, _, result⟩ := bind_eq_ok.mp made
      cases result
      rfl
  · cases made
    rfl

theorem TileNode.Agrees.constructLoopNest (agrees : tile.Agrees) (symbol_table_ : Option SymbolTable) :
    tile.constructLoopNest symbol_table_ ≠ .error (.assertion spacetimeAssertion) := by
  have stops : Checked.Stops (· ≠ .assertion spacetimeAssertion)
      (tile.constructLoopNest symbol_table_) := by
    rw [TileNode.constructLoopNest]
    apply Checked.Stops.bind
    · apply stops_foldlM (fun _ => True)
      · intro loop member loops _
        rw [addLoop]
        apply (stops_resolveLoop symbol_table_ loop).bind
        intro loop' made
        have same := resolveLoop_dimension made
        split
        · apply Checked.Stops.bind
          · have holds : (tile.type_ = .Spatial ∧ IsSpatial loop'.spacetime_dimension = true) ∨
                (tile.type_ = .Temporal ∧ IsSpatial loop'.spacetime_dimension = false) := by
              rw [same]
              have agree := agrees loop member
              cases type_ : tile.type_ with
              | Temporal =>
                rw [type_] at agree
                exact Or.inr ⟨rfl, Bool.eq_false_of_not_eq_true fun spatial =>
                  nomatch agree.mp spatial⟩
              | Spatial => exact Or.inl ⟨rfl, agree.mpr type_⟩
            rw [tileexpAssert, if_pos holds]
            exact stops_ok ()
          · exact fun _ _ => stops_ok _
        · exact stops_ok loops
      · exact fun _ _ _ _ _ _ => trivial
      · trivial
    · exact fun loops _ => stops_ok _
  exact fun failed => stops.of_error _ failed rfl

def Covered (config : NodeConfig) (loop_bounds : LoopBounds) : Prop :=
  ∀ permutation, config.permutation.lookupValue = some permutation →
    ∀ dimension ∈ loop_bounds, dimension ∈ ParsePermutations permutation

/-- An accepted node has the loops of its factors just when its permutation covers them, and an
    accepted Tile has them all of its own kind just when its type is temporal, exactly "spatial", or
    there are none. -/
theorem nests_well_formed_iff (g : Globals) (table table' : SymbolTable) (config : NodeConfig)
    (buffer : String) (loop_bounds : LoopBounds)
    (factors : config.factors.lookupValue = some buffer)
    (parsed : ParseFactors g.re g.macros table buffer = .ok (table', loop_bounds)) :
    (∀ table'' tile, TileNode.construct g table config = .ok (table'', tile) →
      ((WellFormed (iterNames g config loop_bounds) loop_bounds tile.loopnests_ ∧ tile.Agrees ∧
          ∀ symbol_table_, tile.constructLoopNest symbol_table_ ≠
            .error (.assertion TileNode.spacetimeAssertion)) ↔
        Covered config loop_bounds ∧ (contains (tileTypeName config) "temp" = true ∨
          tileTypeName config = "spatial" ∨ loop_bounds.keys = []))) ∧
    ∀ table'' op, OpNode.construct g table config = .ok (table'', op) →
      (WellFormed (iterNames g config loop_bounds) loop_bounds op.loopnests_ ↔
        Covered config loop_bounds) := by
  have bounded : parseLoopBounds g table config = .ok (table', loop_bounds) := by
    rw [parseLoopBounds, factors]
    exact parsed
  constructor
  · intro table'' tile made
    obtain ⟨loop_bounds', _, bounded', looped⟩ := TileNode.construct_eq_ok made
    rw [bounded] at bounded'
    cases bounded'
    have empty : tile.loopnests_ = [] ↔ loop_bounds.keys = [] := by
      have names := congrArg List.length (parseLoops_names looped)
      have sizes := (parseLoops_eq_ok looped).1
      rw [List.length_map, List.length_reverse, sizes] at names
      rw [← List.length_eq_zero_iff, ← List.length_eq_zero_iff, names]
    rw [wellFormed_iff looped, TileNode.agrees_iff made, empty]
    constructor
    · exact fun held => ⟨held.1, held.2.1⟩
    · intro held
      refine ⟨held.1, held.2, ?_⟩
      exact ((TileNode.agrees_iff made).mpr (by rw [empty]; exact held.2)).constructLoopNest
  · intro table'' op made
    obtain ⟨_, loop_bounds', _, _, _, bounded', _, looped, _⟩ := OpNode.construct_eq_ok made
    rw [bounded] at bounded'
    cases bounded'
    exact wellFormed_iff looped

theorem nests_well_formed_tile : ∃ table' tile,
    TileNode.construct oneLevel .empty
        (oneTile (.scalar "Spatial") (.scalar "M=4, N=2,1") (.scalar "NM")) = .ok (table', tile) ∧
      WellFormed ["N", "M"] (((∅ : LoopBounds).insert "M" (4, 4)).insert "N" (2, 1))
        tile.loopnests_ ∧ tile.Agrees := by
  have accepted : (TileNode.construct oneLevel .empty
      (oneTile (.scalar "Spatial") (.scalar "M=4, N=2,1") (.scalar "NM"))).isOk = true := by rfl
  obtain ⟨⟨table', tile⟩, made⟩ := exists_of_isOk accepted
  have formed := ((nests_well_formed_iff oneLevel .empty .empty
    (oneTile (.scalar "Spatial") (.scalar "M=4, N=2,1") (.scalar "NM")) "M=4, N=2,1"
    (((∅ : LoopBounds).insert "M" (4, 4)).insert "N" (2, 1)) rfl (by rfl)).1 table' tile made).mpr
  refine ⟨table', tile, made, ?_⟩
  have covered : Covered (oneTile (.scalar "Spatial") (.scalar "M=4, N=2,1") (.scalar "NM"))
      (((∅ : LoopBounds).insert "M" (4, 4)).insert "N" (2, 1)) := by
    intro permutation given dimension member
    cases given
    rcases (AList.mem_insert _).mp member with rfl | member
    · decide
    · rcases (AList.mem_insert _).mp member with rfl | member
      · decide
      · exact absurd member (AList.notMem_empty dimension)
  have both := formed ⟨covered, Or.inr (Or.inl (by decide))⟩
  exact ⟨both.1, both.2.1⟩

/-- A permutation may name one dimension twice, and a type may contain "spatial" without being it. -/
theorem nest_not_well_formed :
    ((TileNode.construct oneLevel .empty
        (oneTile (.scalar "spatially") (.scalar "M=4, N=2") (.scalar "MM"))).map fun made =>
          (made.2.type_, made.2.loopnests_.map fun loop =>
            (loop.name_, loop.end_, loop.spacetime_dimension))) =
      .ok (.Spatial, [("M", 4, .Time), ("M", 4, .Time)]) ∧
    ((TileNode.construct oneLevel .empty
        (oneTile (.scalar "spatially") (.scalar "M=4, N=2") (.scalar "MM"))).bind fun made =>
          made.2.constructLoopNest none) = .error (.assertion TileNode.spacetimeAssertion) :=
  ⟨by rfl, by rfl⟩

end Tiles

end TileExp.Mapping
