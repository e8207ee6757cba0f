import Mathlib.Algebra.Ring.Nat

/-!
Unsigned machine arithmetic that fails or saturates at the ends of its range.
-/

namespace Checked

def u64Max : Nat := 2 ^ 64 - 1

def add (first second : Nat) : Option Nat :=
  if first + second ≤ u64Max then some (first + second) else none

def sub (first second : Nat) : Option Nat :=
  if second ≤ first then some (first - second) else none

def saturatingAdd (first second : Nat) : Nat := min (first + second) u64Max

def wrappingAdd (first second : Nat) : Nat := (first + second) % 2 ^ 64

def wrappingSub (first second : Nat) : Nat := (first + (2 ^ 64 - second % 2 ^ 64)) % 2 ^ 64

theorem wrappingAdd_mod (first second : Nat) :
    wrappingAdd (first % 2 ^ 64) second = (first + second) % 2 ^ 64 := by
  unfold wrappingAdd
  omega

variable {first second : Nat}

theorem wrappingSub_mod (fits : second ≤ first) :
    wrappingSub (first % 2 ^ 64) second = (first - second) % 2 ^ 64 := by
  unfold wrappingSub
  omega

theorem add_of_le (fits : first + second ≤ u64Max) : add first second = some (first + second) :=
  if_pos fits

theorem sub_of_le (fits : second ≤ first) : sub first second = some (first - second) :=
  if_pos fits

end Checked
