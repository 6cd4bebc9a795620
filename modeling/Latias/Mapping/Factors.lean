import Latias.Library.Machine
import Latias.Library.Regex
import Latias.Mapper.Symbol

/-! `Node::ParseFactors`: the bounds of a node's loops. -/

namespace TileExp.Mapping

open Machine Regex TileExp.Symbol

def isSpace (c : Char) : Bool := c ∈ [' ', '\t', '\n', '\x0b', '\x0c', '\r']

def isToken (c : Char) : Bool := c.isAlphanum || c = '_' || c = '?'

/-- `([A-Za-z]+)[[:space:]]*[=]*[[:space:]]*([0-9A-Za-z_?]+)(,([0-9A-Za-z_?]+))?` -/
def factorPattern : Pattern :=
  .seq (.group 1 (.plus Char.isAlpha))
    (.seq (.star isSpace)
      (.seq (.star (· = '='))
        (.seq (.star isSpace)
          (.seq (.group 2 (.plus isToken))
            (.opt (.group 3 (.seq (.one (· = ',')) (.group 4 (.plus isToken)))))))))

/-- The section `macro` of the configuration: the values of its entries, where reading one as an
    `int` may fail. -/
abbrev Macros := String → Option (Exec Int)

def leadingNumber (s : List Char) : Option Int :=
  let unsigned (s : List Char) : Option Int :=
    let digits := s.takeWhile Char.isDigit
    if digits = [] then none else some (Nat.ofDigitChars 10 digits 0)
  match s.dropWhile isSpace with
  | '-' :: rest => (unsigned rest).map fun n => -n
  | '+' :: rest => unsigned rest
  | rest => unsigned rest

/-- `strtol(s, &ptr, 10)`: 0 where there is no number. -/
def strtol (s : String) : Int := clampInt64 ((leadingNumber s.toList).getD 0)

def stoi (s : String) : Exec Int :=
  match leadingNumber s.toList with
  | none => .error (.exception "invalid_argument")
  | some n => if InInt n then .ok n else .error (.exception "out_of_range")

def isVariable (token : String) : Bool := 'X' ∈ token.toList || '?' ∈ token.toList

def resolveEnd (macros : Macros) (table : SymbolTable) (token : String) :
    Exec (SymbolTable × Int) :=
  match macros token with
  | some value => do
    let end_ ← value
    .ok (table, end_)
  | none =>
    if isVariable token then .ok (table.insert token)
    else .ok (table, toInt32 (strtol token))

def resolveResidual (table : SymbolTable) (token : String) : Exec (SymbolTable × Int) :=
  if isVariable token then .ok (table.insert token)
  else do
    let residual_end ← stoi token
    .ok (table, residual_end)

abbrev LoopBounds := Table (Int × Int)

def addFactor (macros : Macros) (s : SymbolTable × LoopBounds)
    (dimension_name end_token residual_token : String) : Exec (SymbolTable × LoopBounds) := do
  let (table, end_) ← resolveEnd macros s.1 end_token
  let (table, residual_end) ←
    if residual_token ≠ "" then resolveResidual table residual_token else .ok (table, end_)
  .ok (table, s.2.insert dimension_name (end_, residual_end))

variable {macros : Macros} {s : SymbolTable × LoopBounds} {dimension_name end_token : String}

theorem addFactor_full : addFactor macros s dimension_name end_token "" =
    (resolveEnd macros s.1 end_token).map fun full =>
      (full.1, s.2.insert dimension_name (full.2, full.2)) := by
  rw [addFactor]
  cases resolveEnd macros s.1 end_token <;> rfl

theorem addFactor_residual {residual_token : String} (given : residual_token ≠ "") :
    addFactor macros s dimension_name end_token residual_token =
      (resolveEnd macros s.1 end_token).bind fun full =>
        (resolveResidual full.1 residual_token).map fun residual =>
          (residual.1, s.2.insert dimension_name (full.2, residual.2)) := by
  rw [addFactor]
  cases resolveEnd macros s.1 end_token with
  | error fault => rfl
  | ok full =>
    show (if residual_token ≠ "" then _ else _) = _
    rw [if_pos given, Except.bind]
    cases resolveResidual full.1 residual_token <;> rfl

def uncommented (buffer : String) : List Char := buffer.toList.takeWhile (· ≠ '#')

def ParseFactors (re : Search factorPattern) (macros : Macros) (table : SymbolTable)
    (buffer : String) : Exec (SymbolTable × LoopBounds) :=
  (re.searchAll (uncommented buffer)).foldlM
    (fun s sm => addFactor macros s (sm.str 1) (sm.str 2) (sm.str 4)) (table, ∅)

end TileExp.Mapping
