import Mathlib.Tactic.Common

/-!
Fixed-width unsigned arithmetic of the source. Values are natural numbers;
the checked operations fail exactly where the Rust ones return `None`, for a
64-bit target.
-/

namespace Riley

def u32Max : Nat := 4294967295
def u64Max : Nat := 18446744073709551615
def usizeMax : Nat := u64Max

def checkedAdd (limit a b : Nat) : Option Nat :=
  if a + b ≤ limit then some (a + b) else none

def checkedMul (limit a b : Nat) : Option Nat :=
  if a * b ≤ limit then some (a * b) else none

def checkedSub (a b : Nat) : Option Nat :=
  if b ≤ a then some (a - b) else none

theorem checkedAdd_eq_some {limit a b c : Nat} :
    checkedAdd limit a b = some c ↔ a + b = c ∧ a + b ≤ limit := by
  unfold checkedAdd
  split <;> simp <;> omega

theorem checkedAdd_eq_none {limit a b : Nat} :
    checkedAdd limit a b = none ↔ limit < a + b := by
  unfold checkedAdd
  split <;> simp_all

theorem checkedMul_eq_some {limit a b c : Nat} :
    checkedMul limit a b = some c ↔ a * b = c ∧ a * b ≤ limit := by
  unfold checkedMul
  split <;> simp <;> omega

theorem checkedSub_eq_some {a b c : Nat} :
    checkedSub a b = some c ↔ b ≤ a ∧ a - b = c := by
  unfold checkedSub
  split <;> simp <;> omega

theorem checkedSub_eq_none {a b : Nat} : checkedSub a b = none ↔ a < b := by
  unfold checkedSub
  split <;> simp_all

end Riley
