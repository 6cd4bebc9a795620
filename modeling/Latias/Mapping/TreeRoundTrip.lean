import Latias.Mapping.Written

/-! `RecursiveParse` gives back the mapping that a configuration writes. -/

namespace TileExp.Mapping

open Checked Machine Regex TileExp.Symbol

/-! What reading does to the table of the variables. -/

def Keeps (table later : SymbolTable) : Prop :=
  ∀ name id, table.name2idx_.lookup name = some id → later.name2idx_.lookup name = some id

theorem Keeps.refl (table : SymbolTable) : Keeps table table := fun _ _ found => found

theorem Keeps.trans {table table' table'' : SymbolTable} (first : Keeps table table')
    (second : Keeps table' table'') : Keeps table table'' :=
  fun name id found => second name id (first name id found)

structure Declares (table : SymbolTable) (names : List String) (table' : SymbolTable) : Prop where
  keeps : Keeps table table'
  mem : ∀ name, name ∈ table'.name2idx_ ↔ name ∈ table.name2idx_ ∨ name ∈ names
  consistent : table.Consistent → table'.Consistent
  same : (∀ name ∈ names, name ∈ table.name2idx_) → table' = table

namespace Declares

variable {table table' table'' : SymbolTable} {names names' : List String}

theorem none (table : SymbolTable) : Declares table [] table := by
  refine ⟨Keeps.refl table, fun name => ?_, id, fun _ => rfl⟩
  rw [or_iff_left List.not_mem_nil]

theorem append (first : Declares table names table') (second : Declares table' names' table'') :
    Declares table (names ++ names') table'' := by
  refine ⟨first.keeps.trans second.keeps, fun name => ?_, second.consistent ∘ first.consistent, ?_⟩
  · rw [second.mem, first.mem, List.mem_append, or_assoc]
  · intro known
    have middle := first.same fun name member => known name (List.mem_append_left names' member)
    rw [middle] at second
    rw [second.same fun name member => known name (List.mem_append_right names member)]

theorem insert (table : SymbolTable) (name : SymbolName) :
    Declares table [name.name_] (table.insert name.name_).1 := by
  have own : table.insertedName name.name_ = name.name_ := if_neg name.named
  have cases := SymbolTable.insert_cases table name.name_
  rw [own] at cases
  rcases cases with ⟨id, found, same⟩ | ⟨absent, appended⟩
  · have present : name.name_ ∈ table.name2idx_ :=
      AList.lookup_isSome.mp (Option.isSome_of_eq_some found)
    rw [same]
    refine ⟨Keeps.refl table, fun other => ?_, fun consistent => consistent, fun _ => rfl⟩
    rw [List.mem_singleton]
    exact ⟨Or.inl, fun either => either.elim (fun old => old) fun here => here ▸ present⟩
  · have consistent := fun before : table.Consistent => before.insert name.name_
    have keeps := (SymbolTable.lookup_insert table name.name_).2
    rw [appended] at consistent keeps ⊢
    refine ⟨keeps, fun other => ?_, consistent, fun known => ?_⟩
    · rw [AList.mem_insert, List.mem_singleton, or_comm]
    · exact absurd (known name.name_ List.mem_cons_self) absent

theorem known {declared : List String} (declares : Declares table names table')
    (before : ∀ name ∈ declared, name ∈ table.name2idx_) :
    ∀ name ∈ declared ++ names, name ∈ table'.name2idx_ := by
  intro name member
  rw [declares.mem]
  exact (List.mem_append.mp member).imp_left (before name)

end Declares

/-- Reading succeeds and declares the names, and what is read is meant in every later table. -/
def Reads {α : Type} (table : SymbolTable) (names : List String) (read : Exec (SymbolTable × α))
    (meant : SymbolTable → α) : Prop :=
  ∃ table', Declares table names table' ∧
    ∀ later, Keeps table' later → read = .ok (table', meant later)

namespace Reads

variable {α β : Type} {table : SymbolTable} {names names' : List String}
  {read : Exec (SymbolTable × α)} {meant : SymbolTable → α} {meant' : SymbolTable → β}

theorem pure (table : SymbolTable) (a : α) : Reads table [] (.ok (table, a)) fun _ => a :=
  ⟨table, Declares.none table, fun _ _ => rfl⟩

theorem bind {next : SymbolTable × α → Exec (SymbolTable × β)} (first : Reads table names read meant)
    (rest : ∀ table' a, Declares table names table' → (∀ later, Keeps table' later → a = meant later) →
      Reads table' names' (next (table', a)) meant') :
    Reads table (names ++ names') (read >>= next) meant' := by
  obtain ⟨table', declares, value⟩ := first
  have here := value table' (Keeps.refl table')
  have stays : ∀ later, Keeps table' later → meant table' = meant later := by
    intro later keeps
    have there := value later keeps
    rw [here] at there
    exact congrArg Prod.snd (Except.ok.inj there)
  obtain ⟨table'', declares', value'⟩ := rest table' (meant table') declares stays
  refine ⟨table'', declares.append declares', fun later keeps => ?_⟩
  rw [here, ok_bind]
  exact value' later keeps

theorem map {next : SymbolTable × α → Exec (SymbolTable × β)} (first : Reads table names read meant)
    (rest : ∀ table' a later, Declares table names table' → Keeps table' later → a = meant later →
      next (table', a) = .ok (table', meant' later)) :
    Reads table names (read >>= next) meant' := by
  obtain ⟨table', declares, value⟩ := first
  refine ⟨table', declares, fun later keeps => ?_⟩
  rw [value later keeps, ok_bind]
  exact rest table' (meant later) later declares keeps rfl

theorem congr {names' : List String} (reads : Reads table names read meant) (same : names = names') :
    Reads table names' read meant := same ▸ reads

end Reads

section Bounds

variable {macros : Macros} {table : SymbolTable}

theorem Reads.insert (table : SymbolTable) (name : SymbolName) :
    Reads table [name.name_] (.ok (table.insert name.name_)) fun later =>
      (Bound.symbol name).value later := by
  refine ⟨_, Declares.insert table name, fun later keeps => ?_⟩
  have own : table.insertedName name.name_ = name.name_ := if_neg name.named
  have found := (SymbolTable.lookup_insert table name.name_).1
  rw [own] at found
  have value : (Bound.symbol name).value later = (table.insert name.name_).2 := by
    rw [Bound.value, keeps _ _ found, Option.getD_some, Int.neg_neg]
  exact congrArg (fun id => Except.ok ((table.insert name.name_).1, id)) value.symm

theorem Bound.reads_end (bound : Bound) (table : SymbolTable)
    (unnamed : macros (String.ofList bound.token.text) = none) :
    Reads table bound.symbols (resolveEnd macros table (String.ofList bound.token.text))
      fun later => bound.value later := by
  cases bound with
  | number n =>
    rw [Bound.token, ← toString_eq_decimal] at unnamed
    have read := @resolveEnd_decimal macros table n unnamed
    rw [Bound.token, read]
    exact Reads.pure table _
  | symbol name =>
    have read : resolveEnd macros table (String.ofList name.token.text) =
        .ok (table.insert name.name_) := by
      rw [Bound.token] at unnamed
      rw [resolveEnd, unnamed]
      exact if_pos name.symbolic
    rw [Bound.token, read]
    exact Reads.insert table name

theorem Bound.reads_residual (bound : Bound) (table : SymbolTable) :
    Reads table bound.symbols (resolveResidual table (String.ofList bound.token.text))
      fun later => bound.value later := by
  cases bound with
  | number n =>
    rw [Bound.token, resolveResidual_decimal]
    exact Reads.pure table _
  | symbol name =>
    have read : resolveResidual table (String.ofList name.token.text) =
        .ok (table.insert name.name_) := if_pos name.symbolic
    rw [Bound.token, read]
    exact Reads.insert table name

end Bounds

section Loops

variable {g : Globals} {macros : Macros} {config : NodeConfig} {loops : List LoopSpec}

theorem LoopSpec.reads_add (spec : LoopSpec) (s : SymbolTable × LoopBounds)
    (unnamed : macros (String.ofList spec.end_.token.text) = none) :
    Reads s.1 spec.symbols (spec.factor.add macros s) fun later =>
      s.2.insert spec.name_ (spec.bounds later) := by
  have name : String.ofList spec.factor.dimension_name.text = spec.name_ := rfl
  have full := spec.end_.reads_end s.1 unnamed
  rw [Factor.add, name]
  cases residual : spec.residual_end with
  | none =>
    have token : spec.factor.residual = "" := by
      rw [Factor.residual, LoopSpec.factor, residual]
      rfl
    have symbols : spec.end_.symbols = spec.symbols := by
      rw [LoopSpec.symbols, residual]
      exact (List.append_nil _).symm
    rw [token, addFactor_full]
    rw [symbols] at full
    refine full.map fun table' a later _ _ value => ?_
    rw [LoopSpec.bounds, residual, value]
    rfl
  | some residual_end =>
    have token : spec.factor.residual = String.ofList residual_end.token.text := by
      rw [Factor.residual, LoopSpec.factor, residual]
      rfl
    have given : spec.factor.residual ≠ "" := token ▸ ofList_word_ne_empty _
    have symbols : spec.symbols = spec.end_.symbols ++ residual_end.symbols := by
      rw [LoopSpec.symbols, residual]
      rfl
    rw [addFactor_residual given, token, symbols]
    refine full.bind fun table' end_ _ first => ?_
    obtain ⟨table'', declares, second⟩ := residual_end.reads_residual table'
    refine ⟨table'', declares, fun later keeps => ?_⟩
    have bounds : spec.bounds later = (end_, residual_end.value later) := by
      rw [first later (declares.keeps.trans keeps), LoopSpec.bounds, residual]
      rfl
    show _ = Except.ok (table'', s.2.insert spec.name_ (spec.bounds later))
    rw [second later keeps, bounds]
    rfl

theorem reads_loops (unnamed : ∀ spec ∈ loops, macros (String.ofList spec.end_.token.text) = none)
    (s : SymbolTable × LoopBounds) :
    Reads s.1 (loops.flatMap LoopSpec.symbols)
      ((loops.map LoopSpec.factor).foldlM (Factor.add macros) s) fun later =>
        Keys.insertAll LoopSpec.name_ (fun spec => spec.bounds later) loops s.2 := by
  induction loops generalizing s with
  | nil => exact Reads.pure s.1 s.2
  | cons spec loops ih =>
    obtain ⟨here, later⟩ := List.forall_mem_cons.mp unnamed
    rw [List.map_cons, List.foldlM_cons, List.flatMap_cons]
    refine (spec.reads_add s here).bind fun table' a _ value => ?_
    obtain ⟨table'', declares, read⟩ := ih later (table', a)
    refine ⟨table'', declares, fun last keeps => ?_⟩
    rw [read last keeps, value last (declares.keeps.trans keeps)]
    rfl

theorem WritesLoops.reads (writes : WritesLoops config loops) (valid : LoopsValid g loops)
    (table : SymbolTable) :
    ∃ order, order.Perm loops ∧
      Reads table (order.flatMap LoopSpec.symbols) (parseLoopBounds g table config) fun later =>
        Keys.insertAll LoopSpec.name_ (fun spec => spec.bounds later) order ∅ := by
  obtain ⟨order, tail, comment, perm, clear, text⟩ := writes.factors
  refine ⟨order.map Prod.fst, perm, ?_⟩
  have unnamed : ∀ spec ∈ order.map Prod.fst, g.macros (String.ofList spec.end_.token.text) = none :=
    fun spec member => valid.unnamed spec (perm.mem_iff.mp member)
  have clear' : ∀ e ∈ order.map fun e => (e.1.factor, e.2), e.2.Clear e.1 := by
    intro e member
    obtain ⟨e, inside, rfl⟩ := List.mem_map.mp member
    exact clear e inside
  have read : parseLoopBounds g table config =
      ((order.map Prod.fst).map LoopSpec.factor).foldlM (Factor.add g.macros) (table, ∅) := by
    rw [parseLoopBounds, text]
    show ParseFactors g.re g.macros table _ = _
    rw [ParseFactors_written g.re g.macros table clear' tail comment, List.map_map, List.map_map]
    rfl
  rw [read]
  exact reads_loops unnamed (table, ∅)

structure Holds (table : SymbolTable) (loops : List LoopSpec) (loop_bounds : LoopBounds) : Prop where
  bounds : ∀ spec ∈ loops, loop_bounds.lookup spec.name_ = some (spec.bounds table)
  size : loop_bounds.keys.length = loops.length

theorem holds_insertAll {order : List LoopSpec} (perm : order.Perm loops)
    (distinct : (loops.map LoopSpec.name_).Nodup) (table : SymbolTable) :
    Holds table loops (Keys.insertAll LoopSpec.name_ (fun spec => spec.bounds table) order ∅) := by
  have names := perm.map LoopSpec.name_
  have distinct' : (order.map LoopSpec.name_).Nodup := names.nodup_iff.mpr distinct
  constructor
  · exact fun spec member => Keys.lookup_insertAll distinct' (perm.mem_iff.mpr member)
  · have keys : (Keys.insertAll LoopSpec.name_ (fun spec => spec.bounds table) order ∅).keys.Perm
        (order.map LoopSpec.name_) := by
      apply (List.perm_ext_iff_of_nodup (AList.keys_nodup _) distinct').mpr
      intro name
      rw [AList.mem_keys.symm, Keys.mem_keys_insertAll]
      exact or_iff_left (AList.notMem_empty name)
    rw [keys.length_eq, List.length_map, perm.length_eq]

theorem makeLoop_written {table : SymbolTable} {loop_bounds : LoopBounds}
    (holds : Holds table loops loop_bounds) (valid : LoopsValid g loops)
    (spacetime : Nat → Dimension) {spec : LoopSpec} (member : spec ∈ loops) (i : Nat) :
    makeLoop g loop_bounds spacetime (spec.name_, i) = .ok (spec.loop g (spacetime i) table) := by
  obtain ⟨dimension, known⟩ := Option.isSome_iff_exists.mp (valid.declared spec member)
  rw [makeLoop, known, holds.bounds spec member, LoopSpec.loop, known]
  rfl

theorem WritesLoops.iterNames (writes : WritesLoops config loops) (loop_bounds : LoopBounds) :
    iterNames g config loop_bounds = loops.reverse.map LoopSpec.name_ := by
  obtain ⟨buffer, given, letters⟩ := writes.permutation
  rw [Mapping.iterNames, given]
  show ParsePermutations buffer = _
  rw [ParsePermutations, letters, ← List.map_reverse, List.map_map]
  rfl

theorem WritesLoops.parseLoops (writes : WritesLoops config loops) (valid : LoopsValid g loops)
    {table : SymbolTable} {loop_bounds : LoopBounds} (holds : Holds table loops loop_bounds)
    (spacetime : Nat → Nat → Dimension) {split : Nat}
    (given : config.split.getD (.ok loops.length) = .ok split) :
    parseLoops g config loop_bounds spacetime =
      .ok (loops.reverse.zipIdx.reverse.map fun e => e.1.loop g (spacetime split e.2) table) := by
  have names := @iterNames g config loops writes loop_bounds
  have sizes : (Mapping.iterNames g config loop_bounds).length = loop_bounds.keys.length := by
    rw [names, List.length_map, List.length_reverse, holds.size]
  have count : (loops.reverse.map LoopSpec.name_).length = loops.length := by
    rw [List.length_map, List.length_reverse]
  have each : ∀ e ∈ loops.reverse.zipIdx.reverse,
      makeLoop g loop_bounds (spacetime split) (e.1.name_, e.2) =
        .ok (e.1.loop g (spacetime split e.2) table) := by
    intro e member
    have inside : e.1 ∈ loops.reverse := List.fst_mem_of_mem_zipIdx (List.mem_reverse.mp member)
    exact makeLoop_written holds valid (spacetime split) (List.mem_reverse.mp inside) e.2
  rw [Mapping.parseLoops, tileexpAssert, if_pos sizes, names, count, given]
  show ((loops.reverse.map LoopSpec.name_).zipIdx.reverse).mapM _ = _
  rw [List.zipIdx_map, ← List.map_reverse, List.mapM_map]
  exact mapM_eq_map each

theorem map_numbered (f : LoopSpec → Loop) (loops : List LoopSpec) (k : Nat) :
    ((loops.reverse.zipIdx k).reverse.map fun e => f e.1) = loops.map f := by
  have names : (loops.reverse.zipIdx k).reverse.map Prod.fst = loops := by
    rw [List.map_reverse, List.zipIdx_map_fst, List.reverse_reverse]
  conv_rhs => rw [← names, List.map_map]
  rfl

theorem map_split (g : Globals) (table : SymbolTable) (spaceY spaceX : List LoopSpec) :
    ((spaceY ++ spaceX).reverse.zipIdx.reverse.map fun e =>
        e.1.loop g (if e.2 < spaceX.length then .SpaceX else .SpaceY) table) =
      spaceY.map (fun spec => spec.loop g .SpaceY table) ++
        spaceX.map fun spec => spec.loop g .SpaceX table := by
  rw [List.reverse_append, List.zipIdx_append, List.reverse_append, List.map_append,
    ← map_numbered _ spaceY (0 + spaceX.reverse.length), ← map_numbered _ spaceX 0]
  congr 1
  · apply List.map_congr_left
    intro e member
    have above := List.le_snd_of_mem_zipIdx (List.mem_reverse.mp member)
    rw [List.length_reverse] at above
    rw [if_neg (by omega)]
  · apply List.map_congr_left
    intro e member
    have below := List.snd_lt_add_of_mem_zipIdx (List.mem_reverse.mp member)
    rw [List.length_reverse] at below
    rw [if_pos (by omega)]

end Loops

section Nodes

variable {g : Globals} {config : NodeConfig} {table : SymbolTable}

theorem Setting.Gives.lookup {setting : Setting} {value default : String}
    (gives : setting.Gives value default) : setting.lookupValue.getD default = value := by
  rcases gives with given | ⟨absent, same⟩
  · rw [given]
    rfl
  · rw [absent, same]
    rfl

theorem parseTarget_scalar {name_ target : String} (given : config.target = .scalar target)
    (known : (g.LevelName2IdxMap target).isSome) :
    parseTarget g name_ config = .ok (target, g.LevelName2IdxMap target) := by
  obtain ⟨id, found⟩ := Option.isSome_iff_exists.mp known
  have named : (Setting.scalar target).lookupValue.getD "" = target := rfl
  have here : (Setting.scalar target).exists_ = true := rfl
  simp only [parseTarget, given, here, if_true, named, found]

theorem Head.Writes.construct {head : Head} (writes : head.Writes config) {t : NodeType}
    (other : type2name_ t ≠ "Scope") (known : (g.LevelName2IdxMap head.target_level_name).isSome) :
    NodeBase.construct g t config = .ok (head.base g (type2name_ t)) := by
  obtain ⟨value, given, lower⟩ := writes.dataflow_mode
  have mode : parseDataflowMode (type2name_ t) config = .ok (some head.dataflow_mode_) := by
    rw [parseDataflowMode, if_neg other, given]
    show (name2dataflow_mode_ (tolower value) >>= fun mode => Except.ok (some mode)) = _
    rw [lower]
    cases head.dataflow_mode_ <;> rfl
  rw [NodeBase.construct, parseTarget_scalar writes.target known, ok_bind]
  dsimp only
  rw [mode, ok_bind, writes.tag.lookup]
  rfl

theorem mem_symbols_perm {order loops : List LoopSpec} (perm : order.Perm loops) (name : String) :
    name ∈ order.flatMap LoopSpec.symbols ↔ name ∈ loops.flatMap LoopSpec.symbols := by
  simp only [List.mem_flatMap, perm.mem_iff]

theorem Declares.congr {names names' : List String} {table' : SymbolTable}
    (declares : Declares table names table') (same : ∀ name, name ∈ names ↔ name ∈ names') :
    Declares table names' table' := by
  refine ⟨declares.keeps, fun name => ?_, declares.consistent, fun known => ?_⟩
  · rw [declares.mem, same]
  · exact declares.same fun name member => known name ((same name).mp member)

theorem WritesLoops.reads_nest {α : Type} {loops : List LoopSpec} {meant : SymbolTable → α}
    {next : SymbolTable × LoopBounds → Exec (SymbolTable × α)} (writes : WritesLoops config loops)
    (valid : LoopsValid g loops)
    (rest : ∀ table' loop_bounds later, Declares table (loops.flatMap LoopSpec.symbols) table' →
      Holds later loops loop_bounds → next (table', loop_bounds) = .ok (table', meant later)) :
    Reads table (loops.flatMap LoopSpec.symbols) (parseLoopBounds g table config >>= next) meant := by
  obtain ⟨order, perm, table', declares, read⟩ := writes.reads valid table
  have declares' := declares.congr (mem_symbols_perm perm)
  refine ⟨table', declares', fun later keeps => ?_⟩
  rw [read later keeps, ok_bind]
  exact rest table' _ later declares' (holds_insertAll perm valid.distinct later)

theorem TileSpec.type_written {tile : TileSpec} (writes : tile.Writes config) :
    tileTypeName config = tile.word := by
  cases tile with
  | Temporal loops =>
    rw [tileTypeName]
    rcases writes.1 with absent | ⟨value, given, lower⟩
    · rw [absent, TileSpec.word]
      decide
    · rw [given]
      exact lower
  | Spatial spaceY spaceX =>
    obtain ⟨value, given, lower⟩ := writes.1
    rw [tileTypeName, given]
    exact lower

theorem TileSpec.nest_written {tile : TileSpec} (writes : tile.Writes config)
    (valid : LoopsValid g tile.loops) {later : SymbolTable} {loop_bounds : LoopBounds}
    (holds : Holds later tile.loops loop_bounds) :
    (parseLoops g config loop_bounds fun split i =>
      if tileTypeName config = "spatial" then (if i < split then .SpaceX else .SpaceY) else .Time) =
        .ok (tile.loopnests_ g later) := by
  rw [type_written writes]
  cases tile with
  | Temporal loops =>
    rw [TileSpec.word]
    obtain ⟨_, split, writes⟩ := writes
    have given : config.split.getD (.ok loops.length) = .ok loops.length := by
      rw [split]
      rfl
    rw [writes.parseLoops valid holds _ given]
    simp only [if_neg (show "temporal" ≠ "spatial" by decide)]
    rw [map_numbered (fun spec => spec.loop g .Time later)]
    rfl
  | Spatial spaceY spaceX =>
    rw [TileSpec.word]
    obtain ⟨_, split, writes⟩ := writes
    have given : config.split.getD (.ok (spaceY ++ spaceX).length) = .ok spaceX.length := by
      rw [split]
      rfl
    rw [writes.parseLoops valid holds _ given]
    simp only [if_true]
    rw [map_split]
    rfl

theorem TileSpec.reads {head : Head} {tile : TileSpec} (headed : head.Writes config)
    (tiled : tile.Writes config) (known : (g.LevelName2IdxMap head.target_level_name).isSome)
    (valid : LoopsValid g tile.loops) (table : SymbolTable) :
    Reads table (tile.loops.flatMap LoopSpec.symbols) (TileNode.construct g table config) fun later =>
      tile.node g head later := by
  have written : WritesLoops config tile.loops := by
    cases tile with
    | Temporal loops => exact tiled.2.2
    | Spatial spaceY spaceX => exact tiled.2.2
  have based : NodeBase.construct g .Tile config = .ok (head.base g "Tile") :=
    headed.construct (by decide) known
  have typed : parseTileType (tileTypeName config) = .ok tile.type_ := by
    rw [type_written tiled]
    cases tile with
    | Temporal loops => rw [TileSpec.word, TileSpec.type_]; decide
    | Spatial spaceY spaceX => rw [TileSpec.word, TileSpec.type_]; decide
  rw [TileNode.construct, based, ok_bind]
  dsimp only
  rw [typed, ok_bind]
  refine written.reads_nest valid fun table' loop_bounds later _ holds => ?_
  dsimp only
  rw [nest_written tiled valid holds]
  rfl

theorem Head.reads_op {head : Head} {op_name_ : String} {loops : List LoopSpec}
    (headed : head.Writes config) (named : config.name = .scalar op_name_)
    (split : config.split = none) (written : WritesLoops config loops)
    (known : (g.LevelName2IdxMap head.target_level_name).isSome) (valid : LoopsValid g loops)
    (listed : (g.workloads_.workloads_ op_name_).isSome)
    (declared : ∀ name ∈ loops.flatMap LoopSpec.symbols, name ∈ table.name2idx_) :
    Reads table (loops.flatMap LoopSpec.symbols) (OpNode.construct g table config) fun later =>
      head.opNode g op_name_ loops later := by
  obtain ⟨workload, found⟩ := Option.isSome_iff_exists.mp listed
  have based : NodeBase.construct g .Op config = .ok (head.base g "Op") :=
    headed.construct (by decide) known
  rw [OpNode.construct, based, ok_bind, named]
  show Reads table _ (parseLoopBounds g table config >>= _) _
  refine written.reads_nest valid fun table' loop_bounds later declares holds => ?_
  have given : config.split.getD (.ok loops.length) = .ok loops.length := by
    rw [split]
    rfl
  have same := declares.same declared
  dsimp only
  rw [same, tileexpAssert, if_pos rfl, ok_bind, written.parseLoops valid holds _ given, ok_bind,
    map_numbered fun spec => spec.loop g .Time later, Workloads.get_workload, found]
  rw [Head.opNode, found]
  rfl

theorem scope_type {type : ScopeType}
    (given : config.type = .absent ∧ type = .Sequential ∨
      ∃ word ∈ scopeWord type, config.type.Says word) :
    scopeWord type = some (tolower (config.type.lookupValue.getD "sequential")) := by
  rcases given with ⟨absent, rfl⟩ | ⟨word, own, value, scalar, lower⟩
  · rw [absent]
    decide
  · rw [scalar, own]
    exact congrArg some lower.symm

theorem construct_scope {target : Option String} {tag : String} {type : ScopeType}
    (writes : (NodeSpec.Scope target tag type).Writes config)
    (valid : (NodeSpec.Scope target tag type).Valid g) (table : SymbolTable) :
    construct g table config = .ok (table, (NodeSpec.Scope target tag type).node g table) := by
  obtain ⟨⟨value, given, lower⟩, targeted, tagged, typed⟩ := writes
  have base : NodeBase.construct g .Scope config = .ok
      { name_ := taggedName "Scope" tag
        target_level_name := target.getD ""
        target_level_id := target.bind g.LevelName2IdxMap
        dataflow_mode_ := none } := by
    have mode : parseDataflowMode "Scope" config = .ok none := rfl
    have found : parseTarget g "Scope" config =
        .ok (target.getD "", target.bind g.LevelName2IdxMap) := by
      cases target with
      | none =>
        rw [parseTarget, targeted]
        rfl
      | some name => exact parseTarget_scalar targeted (valid name rfl)
    rw [NodeBase.construct]
    dsimp only [type2name_]
    rw [found, ok_bind]
    dsimp only
    rw [mode, ok_bind, tagged.lookup]
    rfl
  have word := scope_type typed
  have made : ScopeNode.construct g config = .ok
      { name_ := taggedName "Scope" tag ++ scopeName type
        target_level_name := target.getD ""
        target_level_id := target.bind g.LevelName2IdxMap
        dataflow_mode_ := none
        type := type } := by
    rw [ScopeNode.construct, base, ok_bind]
    generalize tolower (config.type.lookupValue.getD "sequential") = type_s at word
    cases type with
    | Sequential =>
      obtain rfl := Option.some.inj word
      exact if_pos (show contains "sequential" "seq" = true by decide)
    | Parallel =>
      obtain rfl := Option.some.inj word
      exact (if_neg (show ¬ contains "parallel" "seq" = true by decide)).trans
        (if_pos (show contains "parallel" "para" = true by decide))
    | Pipeline =>
      obtain rfl := Option.some.inj word
      exact (if_neg (show ¬ contains "pipeline" "seq" = true by decide)).trans
        ((if_neg (show ¬ contains "pipeline" "para" = true by decide)).trans
          (if_pos (show contains "pipeline" "pipe" = true by decide)))
    | Sharing =>
      obtain rfl := Option.some.inj word
      exact (if_neg (show ¬ contains "sharing" "seq" = true by decide)).trans
        ((if_neg (show ¬ contains "sharing" "para" = true by decide)).trans
          ((if_neg (show ¬ contains "sharing" "pipe" = true by decide)).trans
            (if_pos (show contains "sharing" "shar" = true by decide))))
    | Ring => cases word
    | Mesh => cases word
  rw [construct, given]
  show (if tolower value = "tile" then _ else _) = _
  rw [lower]
  show (ScopeNode.construct g config >>= _) = _
  rw [made]
  rfl

theorem construct_trans {head : Head} {trans_name_ : String}
    (writes : (NodeSpec.Trans head trans_name_).Writes config)
    (valid : (NodeSpec.Trans head trans_name_).Valid g) (table : SymbolTable) :
    construct g table config = .ok (table, (NodeSpec.Trans head trans_name_).node g table) := by
  obtain ⟨⟨value, given, lower⟩, headed, named⟩ := writes
  have based : NodeBase.construct g .Trans config = .ok (head.base g "Trans") :=
    headed.construct (by decide) valid
  have made : TransNode.construct g config =
      .ok { head.base g "Trans" with trans_name_ := trans_name_ } := by
    rw [TransNode.construct, based, ok_bind, named.lookup]
  rw [construct, given]
  show (if tolower value = "tile" then _ else _) = _
  rw [lower]
  show (TransNode.construct g config >>= _) = _
  rw [made]
  rfl

theorem NodeSpec.reads {spec : NodeSpec} (writes : spec.Writes config) (valid : spec.Valid g)
    (table : SymbolTable)
    (declared : spec.isOp → ∀ name ∈ spec.symbols, name ∈ table.name2idx_) :
    Reads table spec.symbols (construct g table config) fun later => spec.node g later := by
  cases spec with
  | Tile head tile =>
    obtain ⟨⟨value, given, lower⟩, headed, tiled⟩ := writes
    rw [construct, given]
    show Reads table _ (if tolower value = "tile" then _ else _) _
    rw [lower]
    show Reads table _ (TileNode.construct g table config >>= _) _
    refine (TileSpec.reads headed tiled valid.1 valid.2 table).map fun table' a later _ _ value => ?_
    rw [value]
    rfl
  | Op head op_name_ loops =>
    obtain ⟨⟨value, given, lower⟩, headed, named, split, written⟩ := writes
    rw [construct, given]
    show Reads table _ (if tolower value = "tile" then _ else _) _
    rw [lower]
    show Reads table _ (OpNode.construct g table config >>= _) _
    refine (Head.reads_op headed named split written valid.1 valid.2.1 valid.2.2 (declared rfl)).map
      fun table' a later _ _ value => ?_
    rw [value]
    rfl
  | Scope target tag type =>
    rw [construct_scope writes valid table]
    exact Reads.pure table _
  | Trans head trans_name_ =>
    rw [construct_trans writes valid table]
    exact Reads.pure table _

end Nodes

section Trees

variable {g : Globals}

theorem opsDeclared_append {declared : List String} {specs specs' : List NodeSpec} :
    OpsDeclared declared (specs ++ specs') ↔ OpsDeclared declared specs ∧
      OpsDeclared (declared ++ specs.flatMap NodeSpec.symbols) specs' := by
  induction specs generalizing declared with
  | nil => simp [OpsDeclared]
  | cons spec specs ih =>
    rw [List.cons_append, OpsDeclared, OpsDeclared, ih, List.flatMap_cons, List.append_assoc, and_assoc]

def specs (nodes : List WrittenNode) : List NodeSpec := nodes.map WrittenNode.spec

mutual

theorem reads_tree : ∀ (tree : Rose WrittenNode) (table : SymbolTable) (declared : List String),
    (∀ node ∈ flatten tree, node.spec.Valid g) → (∀ name ∈ declared, name ∈ table.name2idx_) →
    OpsDeclared declared (specs (flatten tree)) →
      Reads table ((specs (flatten tree)).flatMap NodeSpec.symbols)
        (RecursiveParse g table (tree.map WrittenNode.config)) fun later =>
          tree.map fun node => node.spec.node g later
  | .mk node subtree, table, declared, valid, known, ops => by
    rw [flatten] at valid ops ⊢
    obtain ⟨here, below⟩ := List.forall_mem_cons.mp valid
    rw [specs, List.map_cons, OpsDeclared] at ops
    rw [specs, List.map_cons, List.flatMap_cons, Rose.map, RecursiveParse]
    have own : node.spec.isOp → ∀ name ∈ node.spec.symbols, name ∈ table.name2idx_ :=
      fun op name member => known name (ops.1 op member)
    refine (NodeSpec.reads node.writes here table own).bind fun table' a declares value => ?_
    refine (reads_forest subtree table' (declared ++ node.spec.symbols) below
      (declares.known known) ops.2).map fun table'' children later declares' keeps value' => ?_
    dsimp only
    rw [value', value later (declares'.keeps.trans keeps)]
    rfl

theorem reads_forest : ∀ (subtree : List (Rose WrittenNode)) (table : SymbolTable)
    (declared : List String), (∀ node ∈ flattenAll subtree, node.spec.Valid g) →
    (∀ name ∈ declared, name ∈ table.name2idx_) →
    OpsDeclared declared (specs (flattenAll subtree)) →
      Reads table ((specs (flattenAll subtree)).flatMap NodeSpec.symbols)
        (parseSubtree g table (Rose.map.maps WrittenNode.config subtree)) fun later =>
          Rose.map.maps (fun node => node.spec.node g later) subtree
  | [], table, _, _, _, _ => Reads.pure table []
  | tree :: rest, table, declared, valid, known, ops => by
    rw [flattenAll] at valid ops ⊢
    rw [specs, List.map_append] at ops ⊢
    rw [List.flatMap_append, Rose.map.maps, parseSubtree]
    obtain ⟨first, later⟩ := List.forall_mem_append.mp valid
    obtain ⟨ops, ops'⟩ := opsDeclared_append.mp ops
    refine (reads_tree tree table declared first known ops).bind fun table' a declares value => ?_
    refine (reads_forest rest table' _ later (declares.known known) ops').map
      fun table'' children later declares' keeps value' => ?_
    dsimp only
    rw [value', value later (declares'.keeps.trans keeps)]
    rfl

end

theorem Bound.value_injective {table : SymbolTable} (consistent : table.Consistent)
    {bound bound' : Bound} (known : ∀ name ∈ bound.symbols, name ∈ table.name2idx_)
    (known' : ∀ name ∈ bound'.symbols, name ∈ table.name2idx_)
    (same : bound.value table = bound'.value table) : bound.token = bound'.token := by
  have found_id {symbol : SymbolName} (present : symbol.name_ ∈ table.name2idx_) :
      ∃ id, table.name2idx_.lookup symbol.name_ = some id ∧ 1 ≤ id ∧
        (Bound.symbol symbol).value table = -id := by
    obtain ⟨id, found⟩ := Option.isSome_iff_exists.mp (AList.lookup_isSome.mpr present)
    exact ⟨id, found, (consistent.id_bounds found).1, by rw [value, found, Option.getD_some]⟩
  cases bound with
  | number n =>
    cases bound' with
    | number n' =>
      have equal : n.1 = n'.1 := Int.ofNat.inj same
      rw [token, token, equal]
    | symbol symbol' =>
      obtain ⟨id, _, positive, value⟩ := found_id (known' _ List.mem_cons_self)
      rw [value, Bound.value] at same
      omega
  | symbol symbol =>
    obtain ⟨id, found, positive, value⟩ := found_id (known _ List.mem_cons_self)
    cases bound' with
    | number n' =>
      rw [value, Bound.value] at same
      omega
    | symbol symbol' =>
      obtain ⟨id', found', _, value'⟩ := found_id (known' _ List.mem_cons_self)
      rw [value, value'] at same
      obtain rfl : id = id' := by omega
      obtain ⟨entry, there, name⟩ := (consistent.paired _ _).mp found
      obtain ⟨entry', there', name'⟩ := (consistent.paired _ _).mp found'
      rw [there] at there'
      obtain rfl := Option.some.inj there'
      exact Word.ext (String.ofList_injective (name.symm.trans name'))

theorem NodeSpec.symbols_of_bound {spec : NodeSpec} {bound : Bound} (member : bound ∈ spec.bounds)
    {name : String} (own : name ∈ bound.symbols) : name ∈ spec.symbols := by
  obtain ⟨loop, inside, among⟩ := List.mem_flatMap.mp member
  refine List.mem_flatMap.mpr ⟨loop, inside, ?_⟩
  rw [LoopSpec.symbols, List.mem_append]
  rcases List.mem_cons.mp among with rfl | residual
  · exact Or.inl own
  · right
    rw [Option.mem_toList.mp residual]
    exact own

/-- What a configuration writes is what the parser makes of it. -/
structure RoundTrip (g : Globals) (table : SymbolTable) (tree : Rose WrittenNode)
    (table' : SymbolTable) : Prop where
  parsed : RecursiveParse g table (tree.map WrittenNode.config) =
    .ok (table', tree.map fun node => node.spec.node g table')
  keeps : Keeps table table'
  names : ∀ name, name ∈ table'.name2idx_ ↔
    name ∈ table.name2idx_ ∨ ∃ node ∈ flatten tree, name ∈ node.spec.symbols
  apart : ∀ node ∈ flatten tree, ∀ node' ∈ flatten tree, ∀ bound ∈ node.spec.bounds,
    ∀ bound' ∈ node'.spec.bounds,
      bound.value table' = bound'.value table' → bound.token = bound'.token

/-- However a mapping is written, `RecursiveParse` gives it back: every node with its loops in order,
    every number, and for every variable the one id that the table has for its name. -/
theorem mapping_round_trip (g : Globals) (table : SymbolTable) (consistent : table.Consistent)
    (tree : Rose WrittenNode) (valid : ∀ node ∈ flatten tree, node.spec.Valid g)
    (declared : OpsDeclared table.name2idx_.keys ((flatten tree).map WrittenNode.spec)) :
    ∃ table', table'.Consistent ∧ RoundTrip g table tree table' := by
  obtain ⟨table', declares, read⟩ := reads_tree tree table table.name2idx_.keys valid
    (fun name member => AList.mem_keys.mpr member) declared
  have consistent' := declares.consistent consistent
  have names : ∀ name, name ∈ table'.name2idx_ ↔
      name ∈ table.name2idx_ ∨ ∃ node ∈ flatten tree, name ∈ node.spec.symbols := by
    intro name
    rw [declares.mem, specs, List.mem_flatMap]
    simp only [List.mem_map, exists_exists_and_eq_and]
  refine ⟨table', consistent', read table' (Keeps.refl table'), declares.keeps, names, ?_⟩
  intro node member node' member' bound own bound' own' same
  apply Bound.value_injective consistent' _ _ same
  · exact fun name inside =>
      (names name).mpr (Or.inr ⟨node, member, NodeSpec.symbols_of_bound own inside⟩)
  · exact fun name inside =>
      (names name).mpr (Or.inr ⟨node', member', NodeSpec.symbols_of_bound own' inside⟩)

def symbolic : LoopSpec where
  letter := ⟨'M', by decide⟩
  end_ := .symbol ⟨.ofAll ['X', '1'] (by decide) (by decide), by decide, by decide⟩
  residual_end := none

def writtenMapping : Rose WrittenNode :=
  .mk (.ofSpec (.Tile ⟨"L1", .Forward, ""⟩ (.Temporal [symbolic])) trivial)
    [.mk (.ofSpec (.Tile ⟨"L1", .Write_back, "array"⟩
        (.Spatial [⟨⟨'M', by decide⟩, .number ⟨4, by decide⟩, none⟩]
          [⟨⟨'N', by decide⟩, .number ⟨2, by decide⟩, some (.number ⟨1, by decide⟩)⟩])) trivial)
      [.mk (.ofSpec (.Op ⟨"L1", .Forward, ""⟩ "copy" [symbolic]) trivial) []]]

theorem mapping_round_trip_array :
    ∃ table', table'.Consistent ∧ RoundTrip oneLevel .empty writtenMapping table' := by
  apply mapping_round_trip oneLevel .empty SymbolTable.consistent_empty writtenMapping
  · intro node member
    have cases : node ∈ flatten writtenMapping := member
    simp only [writtenMapping, flatten, flattenAll, List.append_nil, List.mem_cons,
      List.not_mem_nil, or_false] at cases
    rcases cases with rfl | rfl | rfl
    · exact ⟨by decide, ⟨by decide, by decide, by decide⟩⟩
    · exact ⟨by decide, ⟨by decide, by decide, by decide⟩⟩
    · exact ⟨by decide, ⟨by decide, by decide, by decide⟩, by decide⟩
  · have op : ["X1"] ⊆ [] ++ ["X1"] ++ ([] : List String) := by decide
    exact And.intro (fun tile => nomatch tile)
      (And.intro (fun tile => nomatch tile) (And.intro (fun _ => op) trivial))

end Trees

end TileExp.Mapping
