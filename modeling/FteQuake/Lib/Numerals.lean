import Mathlib.Algebra.Ring.Nat

/-!
# Numerals of small finite types

The numerals of `Fin n` rest on an instance of `NeZero n`. The instances for the sizes of this
development have names of their own, so that a numeral is one term in all modules.
-/

namespace FteQuake

/-- The instance behind the components of a pair. -/
instance instNeZeroTwo : NeZero (2 : ℕ) := ⟨Nat.succ_ne_zero 1⟩

/-- The instance behind the components `0`, `1`, `2` of a vector. -/
instance instNeZeroThree : NeZero (3 : ℕ) := ⟨Nat.succ_ne_zero 2⟩

/-- The instance behind the components of a light. -/
instance instNeZeroFour : NeZero (4 : ℕ) := ⟨Nat.succ_ne_zero 3⟩

end FteQuake
