import Mathlib.Data.BitVec
import Mathlib.Data.Int.Basic
import Mathlib.Logic.Function.Basic
import Mathlib.Tactic.NormNum

/-!
# Serial numbers and a ring of marks

Positions are natural numbers, and a position goes over the wire as a serial number of `w` bits
counted from an origin. Two positions less than half the range apart are compared right by the signed
difference of their numbers (`toInt_sub`).

A ring keeps a mark in the cell of a number, its remainder by the size of the ring. Positions less
than the size apart have cells of their own (`cell_ne`).
-/

namespace Serial

open BitVec

variable {w : ℕ} (o : BitVec w)

/-- The number of a position. -/
def num (p : ℕ) : BitVec w := o + BitVec.ofNat w p

theorem num_succ (p : ℕ) : num o (p + 1) = num o p + 1 := by
  rw [num, num, ofNat_add, add_assoc]
  rfl

theorem num_add (p q : ℕ) : num o (p + q) = num o p + BitVec.ofNat w q := by
  rw [num, num, ofNat_add, add_assoc]

variable {p q size : ℕ}

theorem num_inj : num o p = num o q ↔ p % 2 ^ w = q % 2 ^ w := by
  rw [num, num, add_right_inj, ← toNat_inj, toNat_ofNat, toNat_ofNat]

theorem num_sub_num (p q : ℕ) : num o p - num o q = BitVec.ofNat w p - BitVec.ofNat w q :=
  add_sub_add_left_eq_sub _ _ _

theorem num_sub_of_le (h : q ≤ p) : num o p - num o q = BitVec.ofNat w (p - q) := by
  obtain ⟨d, rfl⟩ := Nat.exists_eq_add_of_le h
  rw [num_sub_num, ofNat_add, add_comm, add_sub_cancel, Nat.add_sub_cancel_left]

/-- The signed difference of two numbers is that of their positions. -/
theorem toInt_sub (h : p < q + 2 ^ (w - 1)) (h' : q < p + 2 ^ (w - 1)) :
    (num o p - num o q).toInt = (p : ℤ) - q := by
  rw [num_sub_num, BitVec.toInt_sub, BitVec.toInt_ofNat', BitVec.toInt_ofNat', Int.bmod_sub_bmod, Int.sub_bmod_bmod]
  rcases w with - | w
  · obtain rfl : p = q := by simp at h h'; omega
    simp
  · have hpow : (2 : ℕ) ^ (w + 1) = 2 * 2 ^ w := by rw [Nat.pow_succ, Nat.mul_comm]
    rw [Nat.add_sub_cancel] at h h'
    exact Int.bmod_eq_of_le_mul_two (by omega) (by omega)

theorem toNat_sub (h : q ≤ p) (h' : p < q + 2 ^ w) :
    (num o p - num o q).toNat = p - q := by
  rw [num_sub_of_le o h, toNat_ofNat, Nat.mod_eq_of_lt (by omega)]

/-! ## The ring -/

/-- The cell of a number in a ring of a size. -/
def cell (size : ℕ) (t : BitVec w) : ℕ := t.toNat % size

theorem cell_num (hs : size ∣ 2 ^ w) (p : ℕ) :
    cell size (num o p) = (o.toNat + p) % size := by
  rw [cell, num, toNat_add, toNat_ofNat, Nat.mod_mod_of_dvd _ hs, Nat.add_mod, Nat.mod_mod_of_dvd _ hs, ← Nat.add_mod]

theorem cell_inj (hs : size ∣ 2 ^ w) :
    cell size (num o p) = cell size (num o q) ↔ p ≡ q [MOD size] := by
  rw [cell_num o hs, cell_num o hs]
  exact ⟨Nat.ModEq.add_left_cancel' _, Nat.ModEq.add_left _⟩

/-- Positions less than the size of the ring apart have different cells. -/
theorem cell_ne (hs : size ∣ 2 ^ w) (h : p < q) (h' : q < p + size) :
    cell size (num o p) ≠ cell size (num o q) := by
  intro heq
  have hdvd := (Nat.modEq_iff_dvd' h.le).1 ((cell_inj o hs).1 heq)
  have := Nat.le_of_dvd (by omega) hdvd
  omega

end Serial
