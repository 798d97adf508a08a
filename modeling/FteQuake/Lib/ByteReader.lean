import Mathlib.Data.List.Basic
import Mathlib.Data.List.Infix
import Mathlib.Tactic.Ring

/-!
# Reading a byte buffer by offsets

`Holds buf a xs` says that the bytes `xs` lie in the buffer from the offset `a` on. A read at an offset
fails outside the buffer. A number of `k` bytes, the low one first, is read back where its bytes lie
(`readLE_of_holds`).
-/

namespace ByteReader

open List

/-- The bytes `xs` lie in the buffer from `a` on. -/
def Holds (buf : List (BitVec 8)) (a : ℕ) (xs : List (BitVec 8)) : Prop := xs <+: buf.drop a

/-- The number of `k` bytes from `a` on. -/
def readLE (buf : List (BitVec 8)) (a : ℕ) : ℕ → Option ℕ
  | 0 => some 0
  | k + 1 => do
    let b ← buf[a]?
    let r ← readLE buf (a + 1) k
    some (b.toNat + 256 * r)

/-- The low `k` bytes of a number. -/
def leBytes : ℕ → ℕ → List (BitVec 8)
  | 0, _ => []
  | k + 1, x => BitVec.ofNat 8 x :: leBytes k (x / 256)

@[simp] theorem length_leBytes (k x : ℕ) : (leBytes k x).length = k := by
  induction k generalizing x with
  | zero => rfl
  | succ k ih => rw [leBytes, length_cons, ih]

variable {buf xs ys : List (BitVec 8)} {a k x : ℕ}

theorem holds_append : Holds buf a (xs ++ ys) ↔ Holds buf a xs ∧ Holds buf (a + xs.length) ys := by
  unfold Holds
  rw [← drop_drop]
  constructor
  · rintro ⟨rest, h⟩
    rw [← h]
    exact ⟨⟨ys ++ rest, (append_assoc _ _ _).symm⟩, by
      rw [append_assoc, drop_left]
      exact prefix_append _ _⟩
  · rintro ⟨⟨rest, h⟩, hys⟩
    rw [← h, drop_left] at hys
    rw [← h]
    exact (prefix_append_right_inj xs).2 hys

theorem Holds.getElem? (h : Holds buf a xs) {i : ℕ} (hi : i < xs.length) :
    buf[a + i]? = some xs[i] := by
  obtain ⟨rest, h⟩ := h
  rw [← getElem?_drop, ← h, getElem?_append_left hi, getElem?_eq_getElem hi]

theorem Holds.head {c : BitVec 8} (h : Holds buf a (c :: xs)) : buf[a]? = some c :=
  h.getElem? (Nat.zero_lt_succ _)

theorem Holds.tail {c : BitVec 8} (h : Holds buf a (c :: xs)) : Holds buf (a + 1) xs :=
  (holds_append.1 (show Holds buf a ([c] ++ xs) from h)).2

theorem Holds.le_length (h : Holds buf a xs) (hne : xs ≠ []) : a + xs.length ≤ buf.length := by
  have hle := h.length_le
  rw [length_drop] at hle
  have := length_pos_of_ne_nil hne
  omega

/-- A piece of the bytes that lie in a buffer, taken from the buffer. -/
theorem Holds.drop_take (h : Holds buf a xs) {u n : ℕ} (hn : u + n ≤ xs.length) :
    (buf.drop (a + u)).take n = (xs.drop u).take n := by
  obtain ⟨rest, h⟩ := h
  rw [← drop_drop, ← h, drop_append_of_le_length (by omega), take_append_of_le_length]
  rw [length_drop]
  omega

theorem readLE_of_holds (h : Holds buf a (leBytes k x)) (hx : x < 256 ^ k) :
    readLE buf a k = some x := by
  induction k generalizing a x with
  | zero => rw [readLE, Nat.lt_one_iff.1 hx]
  | succ k ih =>
    have hlt : x / 256 < 256 ^ k := by
      rw [Nat.div_lt_iff_lt_mul (by omega)]
      rwa [Nat.pow_succ] at hx
    rw [readLE, h.head, ih h.tail hlt]
    simp only [Option.bind_eq_bind, Option.bind_some, BitVec.toNat_ofNat]
    congr 1
    omega

/-- A read inside the buffer gives some number. -/
theorem readLE_isSome (h : a + k ≤ buf.length) : ∃ v, readLE buf a k = some v := by
  induction k generalizing a with
  | zero => exact ⟨0, rfl⟩
  | succ k ih =>
    obtain ⟨r, hr⟩ := ih (by omega : a + 1 + k ≤ buf.length)
    exact ⟨_, by simp [readLE, getElem?_eq_getElem (show a < buf.length by omega), hr]; rfl⟩

end ByteReader
