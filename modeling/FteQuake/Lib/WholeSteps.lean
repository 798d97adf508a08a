import Mathlib.Algebra.Order.Field.Basic
import Mathlib.Algebra.Order.Floor.Semiring
import Mathlib.Tactic.FieldSimp
import Mathlib.Tactic.Linarith
import Mathlib.Tactic.Ring

/-!
# Whole steps and the rest

An amount is made of whole steps of a fixed length and a rest. Taking the steps of one amount, and then
those of its rest with another amount, comes to the steps of both together (`steps_add`, `rest_add`), so
that it does not matter how an amount is split.
-/

namespace WholeSteps

variable {R : Type*} [Field R] [LinearOrder R] [IsStrictOrderedRing R] [FloorSemiring R]

/-- The number of whole steps of length `t` in an amount. -/
def steps (t x : R) : ℕ := ⌊x / t⌋₊

/-- What is left of an amount behind its whole steps. -/
def rest (t x : R) : R := x - steps t x * t

variable {t x y r : R} {n : ℕ}

omit [IsStrictOrderedRing R] in
theorem steps_mul_add_rest (t x : R) : steps t x * t + rest t x = x := by
  rw [rest]
  ring

theorem rest_nonneg (ht : 0 < t) (hx : 0 ≤ x) : 0 ≤ rest t x := by
  have hfloor : (steps t x : R) ≤ x / t := Nat.floor_le (div_nonneg hx ht.le)
  rw [le_div_iff₀ ht] at hfloor
  exact sub_nonneg.2 hfloor

theorem rest_lt (ht : 0 < t) (x : R) : rest t x < t := by
  have hfloor : x / t < steps t x + 1 := Nat.lt_floor_add_one (x / t)
  rw [div_lt_iff₀ ht] at hfloor
  rw [rest]
  linarith

/-- The steps and the rest are the only ones. -/
theorem steps_eq (ht : 0 < t) (h : x = n * t + r) (hr : 0 ≤ r) (hlt : r < t) : steps t x = n := by
  have hdiv : x / t = n + r / t := by
    rw [h, add_div, mul_div_cancel_right₀ _ ht.ne']
  have hnonneg : 0 ≤ r / t := div_nonneg hr ht.le
  have hone : r / t < 1 := (div_lt_one ht).2 hlt
  rw [steps, hdiv, Nat.floor_eq_iff (add_nonneg n.cast_nonneg hnonneg)]
  exact ⟨by linarith, by linarith⟩

theorem rest_eq (ht : 0 < t) (h : x = n * t + r) (hr : 0 ≤ r) (hlt : r < t) : rest t x = r := by
  rw [rest, steps_eq ht h hr hlt, h]
  ring

theorem steps_of_lt (ht : 0 < t) (hx : 0 ≤ x) (hlt : x < t) : steps t x = 0 :=
  steps_eq ht (by rw [Nat.cast_zero, zero_mul, zero_add]) hx hlt

theorem rest_of_lt (ht : 0 < t) (hx : 0 ≤ x) (hlt : x < t) : rest t x = x :=
  rest_eq ht (n := 0) (by rw [Nat.cast_zero, zero_mul, zero_add]) hx hlt

/-- Two amounts, one after the other. -/
theorem add_eq (t x y : R) :
    x + y = (steps t x + steps t (rest t x + y) : ℕ) * t + rest t (rest t x + y) := by
  have h := steps_mul_add_rest t (rest t x + y)
  have h' := steps_mul_add_rest t x
  push_cast
  rw [add_mul, add_assoc, h]
  linarith

theorem steps_add (ht : 0 < t) (hx : 0 ≤ x) (hy : 0 ≤ y) :
    steps t (x + y) = steps t x + steps t (rest t x + y) :=
  steps_eq ht (add_eq t x y) (rest_nonneg ht (add_nonneg (rest_nonneg ht hx) hy)) (rest_lt ht _)

theorem rest_add (ht : 0 < t) (hx : 0 ≤ x) (hy : 0 ≤ y) :
    rest t (x + y) = rest t (rest t x + y) :=
  rest_eq ht (add_eq t x y) (rest_nonneg ht (add_nonneg (rest_nonneg ht hx) hy)) (rest_lt ht _)

/-- One step is taken off. -/
theorem steps_of_le (ht : 0 < t) (hle : t ≤ x) : steps t x = steps t (x - t) + 1 := by
  refine steps_eq ht ?_ (rest_nonneg ht (sub_nonneg.2 hle)) (rest_lt ht (x - t))
  have h := steps_mul_add_rest t (x - t)
  push_cast
  linarith

theorem rest_of_le (ht : 0 < t) (hle : t ≤ x) : rest t x = rest t (x - t) := by
  rw [rest, rest, steps_of_le ht hle]
  push_cast
  ring

end WholeSteps
