import Mathlib.Algebra.Ring.Int.Defs
import Mathlib.Algebra.Ring.Nat
import Mathlib.Data.List.Basic

/-! Machine integers of 32 and 64 bits, and the conversions between them. -/

namespace Machine

def toInt32 (n : Int) : Int := n.bmod (2 ^ 32)

def InInt (n : Int) : Prop := -2 ^ 31 ≤ n ∧ n < 2 ^ 31

instance (n : Int) : Decidable (InInt n) := inferInstanceAs (Decidable (_ ∧ _))

theorem toInt32_eq_iff (n : Int) : toInt32 n = n ↔ InInt n := by
  unfold toInt32 InInt
  rw [Int.bmod_def]
  split <;> omega

def clampInt64 (n : Int) : Int := max (-2 ^ 63) (min n (2 ^ 63 - 1))

theorem clampInt64_of_inInt {n : Int} (fits : InInt n) : clampInt64 n = n := by
  unfold InInt at fits
  unfold clampInt64
  omega

end Machine
