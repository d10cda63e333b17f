/-
Execution requests: failures and limits.
-/
import Tapid.Fallible
import Mathlib.Data.Nat.Notation

namespace Tapid

/-! ### Failures -/

/-- Categories of an execution failure. -/
inductive ExecutionErrorCategory where
  | invalidRequest
  | unsupportedContainment
  | policyViolation
  deriving DecidableEq

structure ExecutionError where
  category : ExecutionErrorCategory
  message : String
  deriving DecidableEq

def invalidRequest (message : String) : ExecutionError := ⟨.invalidRequest, message⟩

/-! ### Limits -/

/-- Argument vectors, in code units. -/
def maxArgvUnits : Nat := 32767

/-- Environment blocks, in code units. -/
def maxEnvironmentBlockUnits : Nat := 32767

namespace Usize

def checkedAdd (n m : Nat) : Option Nat := if n + m < 2 ^ 64 then some (n + m) else none

def checkedMul (n m : Nat) : Option Nat := if n * m < 2 ^ 64 then some (n * m) else none

theorem checkedAdd_eq_some {n m k : Nat} : checkedAdd n m = some k ↔ n + m < 2 ^ 64 ∧ k = n + m := by
  unfold checkedAdd
  split_ifs with h
  · rw [Option.some_inj, and_iff_right h, eq_comm]
  · exact ⟨fun hnone => (by cases hnone), fun hsome => absurd hsome.1 h⟩

theorem checkedMul_eq_some {n m k : Nat} : checkedMul n m = some k ↔ n * m < 2 ^ 64 ∧ k = n * m := by
  unfold checkedMul
  split_ifs with h
  · rw [Option.some_inj, and_iff_right h, eq_comm]
  · exact ⟨fun hnone => (by cases hnone), fun hsome => absurd hsome.1 h⟩

end Usize

end Tapid
