import Latias.Mapping.Nests

/-! The bounds of the Ops of a parsed mapping: whether any is a symbolic variable. -/

namespace TileExp.Mapping

open Checked Machine Regex TileExp.Symbol

/-! One table does not go back to fewer variables than the one before. -/

structure Extends (table table' : SymbolTable) : Prop where
  more : table.idx ≤ table'.idx
  same : table'.idx ≤ table.idx → table' = table

namespace Extends

variable {table table' table'' : SymbolTable}

theorem refl (table : SymbolTable) : Extends table table := ⟨Int.le_refl _, fun _ => rfl⟩

theorem trans (first : Extends table table') (second : Extends table' table'') :
    Extends table table'' := by
  refine ⟨Int.le_trans first.more second.more, fun back => ?_⟩
  have middle := second.same (Int.le_trans back first.more)
  rw [middle] at back ⊢
  exact first.same back

theorem insert (table : SymbolTable) (name : String) : Extends table (table.insert name).1 := by
  rcases SymbolTable.insert_cases table name with ⟨id, _, same⟩ | ⟨_, appended⟩
  · rw [same]
    exact refl table
  · rw [appended]
    constructor
    · show table.idx ≤ table.idx + 1
      omega
    · intro back
      have less : table.idx + 1 ≤ table.idx := back
      omega

end Extends

section Tokens

variable {macros : Macros} {table table' : SymbolTable} {token : String} {value : Int}

theorem resolveEnd_extends (resolved : resolveEnd macros table token = .ok (table', value)) :
    Extends table table' := by
  rw [resolveEnd] at resolved
  split at resolved
  · obtain ⟨_, _, result⟩ := bind_eq_ok.mp resolved
    cases result
    exact Extends.refl table
  · split at resolved
    · have grown := Extends.insert table token
      rwa [Except.ok.inj resolved] at grown
    · cases resolved
      exact Extends.refl table

theorem resolveResidual_extends (resolved : resolveResidual table token = .ok (table', value)) :
    Extends table table' := by
  rw [resolveResidual] at resolved
  split at resolved
  · have grown := Extends.insert table token
    rwa [Except.ok.inj resolved] at grown
  · obtain ⟨_, _, result⟩ := bind_eq_ok.mp resolved
    cases result
    exact Extends.refl table

theorem mem_of_insert_same {value : Int} (same : table.insert token = (table, value)) :
    token ∈ table.name2idx_ := by
  rcases SymbolTable.insert_cases table token with ⟨id, found, _⟩ | ⟨_, appended⟩
  · have present := AList.lookup_isSome.mp (Option.isSome_of_eq_some found)
    by_cases anonymous : SymbolTable.Anonymous token
    · exact absurd present (SymbolTable.insertedName_anonymous anonymous)
    · rwa [SymbolTable.insertedName, if_neg anonymous] at present
  · rw [appended] at same
    have sizes : table.idx + 1 = table.idx := congrArg (fun made => made.1.idx) same
    omega

def NamesSymbol (table : SymbolTable) (token : String) : Prop :=
  isVariable token = true ∧ token ∈ table.name2idx_

def ConcreteEnd (macros : Macros) (token : String) (value : Int) : Prop :=
  macros token = some (.ok value) ∨
    macros token = none ∧ isVariable token = false ∧ value = toInt32 (strtol token)

def ConcreteResidual (token : String) (end_ value : Int) : Prop :=
  token = "" ∧ value = end_ ∨ token ≠ "" ∧ isVariable token = false ∧ stoi token = .ok value

theorem resolveEnd_same (resolved : resolveEnd macros table token = .ok (table, value)) :
    ConcreteEnd macros token value ∨ macros token = none ∧ NamesSymbol table token := by
  rw [resolveEnd] at resolved
  split at resolved
  · next named =>
    obtain ⟨_, known, result⟩ := bind_eq_ok.mp resolved
    cases result
    exact Or.inl (Or.inl (known ▸ named))
  · next unnamed =>
    split at resolved
    · next variable_ =>
      exact Or.inr ⟨unnamed, variable_, mem_of_insert_same (Except.ok.inj resolved)⟩
    · next number =>
      cases resolved
      exact Or.inl (Or.inr ⟨unnamed, Bool.eq_false_of_not_eq_true number, rfl⟩)

theorem resolveResidual_same (resolved : resolveResidual table token = .ok (table, value)) :
    (isVariable token = false ∧ stoi token = .ok value) ∨ NamesSymbol table token := by
  rw [resolveResidual] at resolved
  split at resolved
  · next variable_ => exact Or.inr ⟨variable_, mem_of_insert_same (Except.ok.inj resolved)⟩
  · next number =>
    obtain ⟨_, read, result⟩ := bind_eq_ok.mp resolved
    cases result
    exact Or.inl ⟨Bool.eq_false_of_not_eq_true number, read⟩

end Tokens

section Factors

variable {macros : Macros} {table table' : SymbolTable} {loop_bounds loop_bounds' : LoopBounds}

/-- A match read with the table as it is: the bounds of its dimension. -/
def ReadAs (macros : Macros) (table : SymbolTable) (sm : Found) (bounds : Int × Int) : Prop :=
  resolveEnd macros table (sm.str 2) = .ok (table, bounds.1) ∧
    (sm.str 4 = "" ∧ bounds.2 = bounds.1 ∨
      sm.str 4 ≠ "" ∧ resolveResidual table (sm.str 4) = .ok (table, bounds.2))

theorem addFactor_eq_ok {s : SymbolTable × LoopBounds} {dimension_name end_token residual_token : String}
    (added : addFactor macros s dimension_name end_token residual_token = .ok (table', loop_bounds')) :
    ∃ table₁ end_ residual_end, resolveEnd macros s.1 end_token = .ok (table₁, end_) ∧
      (residual_token = "" ∧ table' = table₁ ∧ residual_end = end_ ∨
        residual_token ≠ "" ∧ resolveResidual table₁ residual_token = .ok (table', residual_end)) ∧
      loop_bounds' = s.2.insert dimension_name (end_, residual_end) := by
  rw [addFactor] at added
  obtain ⟨⟨table₁, end_⟩, full, added⟩ := bind_eq_ok.mp added
  refine ⟨table₁, end_, ?_⟩
  dsimp only at added
  split at added
  · next given =>
    obtain ⟨⟨table₂, residual_end⟩, residual, result⟩ := bind_eq_ok.mp added
    cases result
    exact ⟨residual_end, full, Or.inr ⟨given, residual⟩, rfl⟩
  · next none =>
    cases added
    exact ⟨end_, full, Or.inl ⟨not_not.mp none, rfl, rfl⟩, rfl⟩

theorem addFactor_extends {s : SymbolTable × LoopBounds}
    {dimension_name end_token residual_token : String}
    (added : addFactor macros s dimension_name end_token residual_token = .ok (table', loop_bounds')) :
    Extends s.1 table' := by
  obtain ⟨table₁, end_, residual_end, full, residual, _⟩ := addFactor_eq_ok added
  have first := resolveEnd_extends full
  rcases residual with ⟨_, rfl, _⟩ | ⟨_, residual⟩
  · exact first
  · exact first.trans (resolveResidual_extends residual)

def lastMatch (found : List Found) (dimension : String) : Option Found :=
  found.reverse.find? fun sm => sm.str 1 = dimension

theorem rounds_extend {found : List Found} {s : SymbolTable × LoopBounds}
    (run : found.foldlM (fun s sm => addFactor macros s (sm.str 1) (sm.str 2) (sm.str 4)) s =
      .ok (table', loop_bounds')) : Extends s.1 table' := by
  induction found generalizing s with
  | nil =>
    cases run
    exact Extends.refl _
  | cons sm found ih =>
    rw [List.foldlM_cons] at run
    obtain ⟨middle, first, rest⟩ := bind_eq_ok.mp run
    exact (addFactor_extends first).trans (ih rest)

/-- Rounds that make no new variable read every match with the table as it was, and the last one for
    a dimension gives its bounds. -/
theorem rounds_same {found : List Found} {s : SymbolTable × LoopBounds}
    (run : found.foldlM (fun s sm => addFactor macros s (sm.str 1) (sm.str 2) (sm.str 4)) s =
      .ok (table', loop_bounds')) (same : table'.idx ≤ s.1.idx) (dimension : String) :
    (∃ sm bounds, lastMatch found dimension = some sm ∧
      loop_bounds'.lookup dimension = some bounds ∧ ReadAs macros s.1 sm bounds) ∨
    lastMatch found dimension = none ∧ loop_bounds'.lookup dimension = s.2.lookup dimension := by
  induction found generalizing s with
  | nil =>
    cases run
    exact Or.inr ⟨rfl, rfl⟩
  | cons sm found ih =>
    rw [List.foldlM_cons] at run
    obtain ⟨⟨table₁, loop_bounds₁⟩, first, rest⟩ := bind_eq_ok.mp run
    have grown := addFactor_extends first
    have unchanged : table₁ = s.1 := grown.same (Int.le_trans (rounds_extend rest).more same)
    have last : lastMatch (sm :: found) dimension =
        (lastMatch found dimension).or (if sm.str 1 = dimension then some sm else none) := by
      rw [lastMatch, List.reverse_cons, List.find?_append, List.find?_singleton]
      simp only [decide_eq_true_eq]
      rfl
    rcases ih rest (by rw [unchanged]; exact same) with ⟨sm', bounds, later, value, read⟩ | ⟨none, value⟩
    · left
      rw [unchanged] at read
      exact ⟨sm', bounds, by rw [last, later, Option.some_or], value, read⟩
    · obtain ⟨table₂, end_, residual_end, full, residual, inserted⟩ := addFactor_eq_ok first
      have middle : table₂ = s.1 := by
        apply (resolveEnd_extends full).same
        rcases residual with ⟨_, back, _⟩ | ⟨_, residual⟩
        · rw [← back, unchanged]
        · rw [← unchanged]
          exact (resolveResidual_extends residual).more
      rw [middle] at full residual
      rw [unchanged] at residual
      dsimp only at value
      rw [inserted] at value
      by_cases here : sm.str 1 = dimension
      · left
        rw [here, AList.lookup_insert] at value
        refine ⟨sm, _, by rw [last, none, if_pos here]; rfl, value, full, ?_⟩
        rcases residual with ⟨empty, _, own⟩ | given
        · exact Or.inl ⟨empty, own⟩
        · exact Or.inr given
      · right
        rw [AList.lookup_insert_ne (Ne.symm here)] at value
        exact ⟨by rw [last, none, if_neg here]; rfl, value⟩

end Factors

def Concrete (g : Globals) (buffer : String) (loop : Loop) : Prop :=
  ∃ sm, lastMatch (g.re.searchAll (uncommented buffer)) loop.name_ = some sm ∧
    ConcreteEnd g.macros (sm.str 2) loop.end_ ∧
    ConcreteResidual (sm.str 4) loop.end_ loop.residual_end

def loopNames (g : Globals) (config : NodeConfig) (buffer : String) : List String :=
  match config.permutation.lookupValue with
  | some permutation => ParsePermutations permutation
  | none => (g.re.searchAll (uncommented buffer)).map fun sm => sm.str 1

def Unsymbolic (g : Globals) (table : SymbolTable) (config : NodeConfig) (buffer : String) : Prop :=
  ∀ dimension ∈ loopNames g config buffer,
    ∃ sm, lastMatch (g.re.searchAll (uncommented buffer)) dimension = some sm ∧
      ¬ (g.macros (sm.str 2) = none ∧ NamesSymbol table (sm.str 2)) ∧
      ¬ NamesSymbol table (sm.str 4)

section Ops

variable {g : Globals} {table table' : SymbolTable} {config : NodeConfig} {buffer : String}
  {loop_bounds : LoopBounds} {op : OpNode}

theorem lastMatch_eq_none {found : List Found} {dimension : String} :
    lastMatch found dimension = none ↔ dimension ∉ found.map fun sm => sm.str 1 := by
  rw [lastMatch, List.find?_eq_none]
  simp

theorem mem_iterNames (parsed : ParseFactors g.re g.macros table buffer = .ok (table', loop_bounds))
    (same : table'.idx ≤ table.idx) {dimension : String} :
    dimension ∈ iterNames g config loop_bounds ↔ dimension ∈ loopNames g config buffer := by
  cases given : config.permutation.lookupValue with
  | some permutation => rw [iterNames, loopNames, given]
  | none =>
    rw [(iterNames_perm given).mem_iff, loopNames, given, AList.mem_keys.symm, ← AList.lookup_isSome]
    rcases rounds_same parsed same dimension with ⟨sm, bounds, last, value, _⟩ | ⟨none, value⟩
    · rw [value]
      have among : lastMatch (g.re.searchAll (uncommented buffer)) dimension ≠ Option.none := by
        rw [last]
        exact Option.some_ne_none sm
      rw [ne_eq, lastMatch_eq_none, not_not] at among
      exact iff_of_true rfl among
    · rw [value]
      exact iff_of_false (by simp) (lastMatch_eq_none.mp none)

theorem op_concrete_iff (made : OpNode.construct g table config = .ok (table', op))
    (factors : config.factors.lookupValue = some buffer) :
    (∀ loop ∈ op.loopnests_, Concrete g buffer loop) ↔ Unsymbolic g table config buffer := by
  obtain ⟨_, loop_bounds, _, _, _, bounded, declared, looped, _⟩ := OpNode.construct_eq_ok made
  rw [parseLoopBounds, factors] at bounded
  have same : table'.idx ≤ table.idx := Int.le_of_eq declared.symm
  have names := parseLoops_names looped
  obtain ⟨_, split, rounds⟩ := parseLoops_eq_ok looped
  constructor
  · intro concrete dimension member
    have among : dimension ∈ op.loopnests_.map fun loop => loop.name_ := by
      rw [names, List.mem_reverse]
      exact (mem_iterNames bounded same).mpr member
    obtain ⟨loop, inside, rfl⟩ := List.mem_map.mp among
    obtain ⟨sm, last, full, residual⟩ := concrete loop inside
    refine ⟨sm, last, ?_, ?_⟩
    · rintro ⟨unnamed, variable_, _⟩
      rcases full with named | ⟨_, number, _⟩
      · rw [unnamed] at named
        cases named
      · rw [number] at variable_
        cases variable_
    · rintro ⟨variable_, _⟩
      rcases residual with ⟨empty, _⟩ | ⟨_, number, _⟩
      · rw [empty] at variable_
        exact absurd variable_ (by decide)
      · rw [number] at variable_
        cases variable_
  · intro unsymbolic loop member
    obtain ⟨iter, _, one⟩ := mem_of_mapM rounds member
    obtain ⟨name, value, _⟩ := makeLoop_eq_ok one
    have among : loop.name_ ∈ iterNames g config loop_bounds := by
      have inside : loop.name_ ∈ op.loopnests_.map fun loop => loop.name_ :=
        List.mem_map_of_mem member
      rwa [names, List.mem_reverse] at inside
    obtain ⟨sm, last, unhidden, unhidden'⟩ := unsymbolic _ ((mem_iterNames bounded same).mp among)
    rcases rounds_same bounded same loop.name_ with ⟨sm', bounds, last', found, full, residual⟩ |
      ⟨none, _⟩
    · rw [last] at last'
      cases last'
      rw [← name, found, Option.getD_some] at value
      cases value
      refine ⟨sm, last, (resolveEnd_same full).resolve_right unhidden, ?_⟩
      rcases residual with ⟨empty, own⟩ | ⟨given, read⟩
      · exact Or.inl ⟨empty, own⟩
      · exact Or.inr ⟨given, (resolveResidual_same read).resolve_right unhidden'⟩
    · rw [last] at none
      cases none

def IsOp (config : NodeConfig) : Prop := config.node_type.lookupValue.map tolower = some "op"

instance (config : NodeConfig) : Decidable (IsOp config) := inferInstanceAs (Decidable (_ = _))

theorem construct_op (made : construct g table config = .ok (table', .Op op)) :
    IsOp config ∧ OpNode.construct g table config = .ok (table', op) := by
  unfold IsOp
  rw [construct] at made
  cases typed : config.node_type.lookupValue with
  | none =>
    rw [typed] at made
    cases made
  | some value =>
    rw [typed] at made
    dsimp only at made
    split at made
    · obtain ⟨_, _, result⟩ := bind_eq_ok.mp made
      cases result
    · split at made
      · next isOp =>
        obtain ⟨⟨table₁, node⟩, one, result⟩ := bind_eq_ok.mp made
        cases result
        exact ⟨congrArg some isOp, one⟩
      · split at made
        · obtain ⟨_, _, result⟩ := bind_eq_ok.mp made
          cases result
        · split at made
          · obtain ⟨_, _, result⟩ := bind_eq_ok.mp made
            cases result
          · cases made

theorem construct_isOp {node : ParsedNode} (isOp : IsOp config)
    (made : construct g table config = .ok (table', node)) : ∃ op, node = .Op op := by
  obtain ⟨value, typed, lower⟩ := Option.map_eq_some_iff.mp isOp
  rw [construct, typed] at made
  simp only [lower, if_neg (show "op" ≠ "tile" by decide), if_true] at made
  obtain ⟨⟨_, op⟩, _, result⟩ := bind_eq_ok.mp made
  cases result
  exact ⟨op, rfl⟩

end Ops

/-! A whole run of `RecursiveParse`. -/

/-- One call of a constructor: the table before it, the configuration, and the node. -/
structure Step where
  before : SymbolTable
  config : NodeConfig
  node : ParsedNode

def run (g : Globals) (table : SymbolTable) : List NodeConfig → Exec (SymbolTable × List Step)
  | [] => .ok (table, [])
  | config :: rest => do
    let (table', node) ← construct g table config
    let (last, steps) ← run g table' rest
    .ok (last, ⟨table, config, node⟩ :: steps)

mutual

def flatten {α : Type} : Rose α → List α
  | .mk value children => value :: flattenAll children

def flattenAll {α : Type} : List (Rose α) → List α
  | [] => []
  | child :: rest => flatten child ++ flattenAll rest

end

section Runs

variable {g : Globals} {table table' table'' : SymbolTable}

theorem run_append {configs configs' : List NodeConfig} {steps steps' : List Step}
    (first : run g table configs = .ok (table', steps))
    (second : run g table' configs' = .ok (table'', steps')) :
    run g table (configs ++ configs') = .ok (table'', steps ++ steps') := by
  induction configs generalizing table steps with
  | nil =>
    cases first
    exact second
  | cons config configs ih =>
    rw [run] at first
    obtain ⟨⟨table₁, node⟩, made, first⟩ := bind_eq_ok.mp first
    obtain ⟨⟨last, later⟩, rest, result⟩ := bind_eq_ok.mp first
    cases result
    rw [List.cons_append, run, made, ok_bind]
    dsimp only
    rw [ih rest]
    rfl

mutual

/-- `RecursiveParse` calls the constructors for the configurations from parents to children. -/
theorem run_of_RecursiveParse : ∀ (config : Rose NodeConfig) (table table' : SymbolTable)
    (tree : Rose ParsedNode), RecursiveParse g table config = .ok (table', tree) →
      ∃ steps, run g table (flatten config) = .ok (table', steps) ∧
        steps.map Step.node = flatten tree
  | .mk config subtree, table, table', tree, parsed => by
    rw [RecursiveParse] at parsed
    obtain ⟨⟨table₁, node⟩, made, parsed⟩ := bind_eq_ok.mp parsed
    obtain ⟨⟨table₂, children⟩, below, result⟩ := bind_eq_ok.mp parsed
    cases result
    obtain ⟨steps, ran, nodes⟩ := run_of_parseSubtree subtree table₁ table' children below
    refine ⟨⟨table, config, node⟩ :: steps, ?_, ?_⟩
    · rw [flatten, run, made, ok_bind]
      dsimp only
      rw [ran]
      rfl
    · rw [List.map_cons, nodes, flatten]

theorem run_of_parseSubtree : ∀ (subtree : List (Rose NodeConfig)) (table table' : SymbolTable)
    (children : List (Rose ParsedNode)), parseSubtree g table subtree = .ok (table', children) →
      ∃ steps, run g table (flattenAll subtree) = .ok (table', steps) ∧
        steps.map Step.node = flattenAll children
  | [], table, table', children, parsed => by
    cases parsed
    exact ⟨[], rfl, rfl⟩
  | config :: rest, table, table', children, parsed => by
    rw [parseSubtree] at parsed
    obtain ⟨⟨table₁, child⟩, first, parsed⟩ := bind_eq_ok.mp parsed
    obtain ⟨⟨table₂, others⟩, later, result⟩ := bind_eq_ok.mp parsed
    cases result
    obtain ⟨steps, ran, nodes⟩ := run_of_RecursiveParse config table table₁ child first
    obtain ⟨steps', ran', nodes'⟩ := run_of_parseSubtree rest table₁ table' others later
    refine ⟨steps ++ steps', ?_, ?_⟩
    · rw [flattenAll]
      exact run_append ran ran'
    · rw [List.map_append, nodes, nodes', flattenAll]

end

theorem made_of_run {configs : List NodeConfig} {steps : List Step}
    (ran : run g table configs = .ok (table', steps)) {step : Step} (member : step ∈ steps) :
    step.config ∈ configs ∧ ∃ after, construct g step.before step.config = .ok (after, step.node) := by
  induction configs generalizing table steps with
  | nil =>
    cases ran
    cases member
  | cons config configs ih =>
    rw [run] at ran
    obtain ⟨⟨table₁, node⟩, made, ran⟩ := bind_eq_ok.mp ran
    obtain ⟨⟨last, later⟩, rest, result⟩ := bind_eq_ok.mp ran
    cases result
    rcases List.mem_cons.mp member with rfl | inside
    · exact ⟨List.mem_cons_self, table₁, made⟩
    · obtain ⟨among, after, one⟩ := ih rest inside
      exact ⟨List.mem_cons_of_mem config among, after, one⟩

/-- In a run of `RecursiveParse` that accepts its mapping, all bounds of the Ops are macros and
    numbers just when no token of an Op is a variable that the nodes before it have declared, and
    every loop of an Op has a factor. -/
theorem op_factors_concrete_iff (g : Globals) (table table' : SymbolTable) (config : Rose NodeConfig)
    (tree : Rose ParsedNode) (parsed : RecursiveParse g table config = .ok (table', tree)) :
    ∃ steps, run g table (flatten config) = .ok (table', steps) ∧
      steps.map Step.node = flatten tree ∧
      ((∀ step ∈ steps, ∀ op buffer, step.node = .Op op →
          step.config.factors.lookupValue = some buffer →
            ∀ loop ∈ op.loopnests_, Concrete g buffer loop) ↔
        ∀ step ∈ steps, ∀ buffer, IsOp step.config →
          step.config.factors.lookupValue = some buffer →
            Unsymbolic g step.before step.config buffer) := by
  obtain ⟨steps, ran, nodes⟩ := run_of_RecursiveParse config table table' tree parsed
  refine ⟨steps, ran, nodes, ?_, ?_⟩
  · intro concrete step member buffer isOp factors
    obtain ⟨_, after, made⟩ := made_of_run ran member
    obtain ⟨op, node⟩ := construct_isOp isOp made
    rw [node] at made
    exact (op_concrete_iff (construct_op made).2 factors).mp (concrete step member op buffer node factors)
  · intro unsymbolic step member op buffer node factors
    obtain ⟨_, after, made⟩ := made_of_run ran member
    rw [node] at made
    obtain ⟨isOp, one⟩ := construct_op made
    exact (op_concrete_iff one factors).mpr (unsymbolic step member buffer isOp factors)

def concreteMapping : Rose NodeConfig :=
  .mk (oneTile (.scalar "temporal") (.scalar "M=X1") .absent)
    [.mk (oneOp .absent (.scalar "copy") (.scalar "M=4, N=2,1") (.scalar "MN")) []]

theorem op_factors_concrete_mapping : ∃ table' tree,
    RecursiveParse oneLevel .empty concreteMapping = .ok (table', tree) ∧
    ∃ steps, run oneLevel .empty (flatten concreteMapping) = .ok (table', steps) ∧
      steps.map Step.node = flatten tree ∧
      ∀ step ∈ steps, ∀ op buffer, step.node = .Op op →
        step.config.factors.lookupValue = some buffer →
          ∀ loop ∈ op.loopnests_, Concrete oneLevel buffer loop := by
  have accepted : (RecursiveParse oneLevel .empty concreteMapping).isOk = true := by rfl
  obtain ⟨⟨table', tree⟩, parsed⟩ := exists_of_isOk accepted
  obtain ⟨steps, ran, nodes, concrete⟩ :=
    op_factors_concrete_iff oneLevel .empty table' concreteMapping tree parsed
  refine ⟨table', tree, parsed, steps, ran, nodes, concrete.mpr ?_⟩
  intro step member buffer isOp factors
  have known : step.config = oneTile (.scalar "temporal") (.scalar "M=X1") .absent ∨
      step.config = oneOp .absent (.scalar "copy") (.scalar "M=4, N=2,1") (.scalar "MN") := by
    have among := (made_of_run ran member).1
    simpa [concreteMapping, flatten, flattenAll] using among
  rcases known with tile | op
  · rw [tile] at isOp
    exact absurd isOp (by decide)
  · rw [op] at factors ⊢
    cases factors
    intro dimension named
    have cases : dimension = "M" ∨ dimension = "N" := by
      have names : loopNames oneLevel
          (oneOp .absent (.scalar "copy") (.scalar "M=4, N=2,1") (.scalar "MN")) "M=4, N=2,1" =
            ["M", "N"] := by decide +kernel
      rw [names] at named
      simpa using named
    rcases cases with rfl | rfl
    · refine ⟨⟨[], "M=4".toList, [(1, ['M']), (2, ['4'])], ", N=2,1".toList⟩, by decide +kernel, ?_, ?_⟩
      · exact fun symbolic => absurd symbolic.2.1 (by decide)
      · exact fun symbolic => absurd symbolic.1 (by decide)
    · refine ⟨⟨[',', ' '], "N=2,1".toList,
        [(1, ['N']), (2, ['2']), (3, [',', '1']), (4, ['1'])], []⟩, by decide +kernel, ?_, ?_⟩
      · exact fun symbolic => absurd symbolic.2.1 (by decide)
      · exact fun symbolic => absurd symbolic.1 (by decide)

theorem op_factor_symbolic :
    ((RecursiveParse oneLevel .empty
        (.mk (oneTile (.scalar "temporal") (.scalar "M=X1") .absent)
          [.mk (oneOp .absent (.scalar "copy") (.scalar "M=X1") .absent) []])).map fun parsed =>
      (flatten parsed.2).map fun node =>
        match node with
        | .Op op => op.loopnests_.map fun loop => (loop.name_, loop.end_, loop.residual_end)
        | .Tile _ => []
        | .Scope _ => []
        | .Trans _ => []).toOption = some [[], [("M", -1, -1)]] ∧
    (SymbolTable.empty.insert "X1").2 = -1 := by
  constructor
  · decide +kernel
  · decide +kernel

end Runs

end TileExp.Mapping
