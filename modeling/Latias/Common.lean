import Mathlib.Data.List.AList

namespace TileExp

/-- How the program stops without a result: a failed `TILEEXP_ASSERT` or `TILEEXP_ERROR`, an
    exception that nothing catches, or an operation that C++ leaves undefined. -/
inductive Fault where
  | assertion (msg : String)
  | exception (what : String)
  | outOfRange
  | nullPointer
  | divisionByZero
  | uninitialized
  deriving DecidableEq, Repr

abbrev Exec := Except Fault

def tileexpAssert (cond : Prop) [Decidable cond] (msg : String) : Exec Unit :=
  if cond then .ok () else .error (.assertion msg)

theorem tileexpAssert_eq_ok {cond : Prop} [Decidable cond] {msg : String} {u : Unit} :
    tileexpAssert cond msg = .ok u ↔ cond := by
  unfold tileexpAssert
  split <;> simp [*]

/-- An `unordered_map` that the program iterates over. -/
abbrev Table (ν : Type) := AList fun _ : String => ν

def divide (n : Int) (d : Nat) : Exec Int :=
  if d = 0 then .error .divisionByZero else .ok (n.tdiv d)

theorem divide_eq_ok {n q : Int} {d : Nat} (call : divide n d = .ok q) : d ≠ 0 ∧ q = n.tdiv d := by
  unfold divide at call
  split at call
  · cases call
  · next positive =>
    cases call
    exact ⟨positive, rfl⟩

end TileExp
