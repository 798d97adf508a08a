import FteQuake.Lib.BitFlags
import FteQuake.Lib.Memory

/-!
# Bits in a byte memory

A byte memory seen as a memory of bits, the low bit of each byte first: `bitAt m` is a `Mem Bool`,
so the bits from `j` on are its slices. A bit writer clears a byte when it enters it and then
stores one bit after the other with `|||`. `putBit` is one such step and `putBits` a run of them;
as long as no bit is set ahead of the cursor in its byte (`Clear`), a run stores its bits and
leaves every bit before it alone.
-/

namespace BitBuffer

/-- Bit `j` of the memory. -/
def bitAt (m : Mem (BitVec 8)) : Mem Bool := fun j => (m (j / 8)).getLsbD (j % 8)

/-- The bits of the byte at `j` from `j` on are 0, unless `j` begins a byte. -/
def Clear (m : Mem (BitVec 8)) (j : ℕ) : Prop :=
  j % 8 ≠ 0 → ∀ k, j ≤ k → k / 8 = j / 8 → bitAt m k = false

/-- Store one bit, in a byte that is cleared first if the bit begins it. -/
def putBit (m : Mem (BitVec 8)) (j : ℕ) (b : Bool) : Mem (BitVec 8) :=
  let byte := if j % 8 = 0 then 0 else m (j / 8)
  m.store (j / 8) (byte ||| (BitVec.ofBool b).setWidth 8 <<< (j % 8))

/-- Store a run of bits. -/
def putBits (m : Mem (BitVec 8)) (j : ℕ) : List Bool → Mem (BitVec 8)
  | [] => m
  | b :: bs => putBits (putBit m j b) (j + 1) bs

variable {m : Mem (BitVec 8)} {j : ℕ}

theorem clear_of_mod_eq_zero (h : j % 8 = 0) : Clear m j :=
  fun hj => absurd h hj

theorem ext_bitAt {m' : Mem (BitVec 8)} (h : ∀ k, bitAt m k = bitAt m' k) : m = m' := by
  funext a
  refine BitVec.eq_of_getLsbD_eq fun i hi => ?_
  have e := h (8 * a + i)
  rwa [bitAt, bitAt, show (8 * a + i) / 8 = a by omega, show (8 * a + i) % 8 = i by omega] at e

theorem bitAt_store (m : Mem (BitVec 8)) (p : ℕ) (x : BitVec 8) (k : ℕ) :
    bitAt (m.store p x) k = if k / 8 = p then x.getLsbD (k % 8) else bitAt m k := by
  rw [bitAt, Mem.store]
  split <;> rfl

/-! ## One bit -/

theorem bitAt_putBit (h : Clear m j) (b : Bool) (k : ℕ) :
    bitAt (putBit m j b) k =
      if k = j then b else if j < k ∧ k / 8 = j / 8 then false else bitAt m k := by
  have hbit : ((BitVec.ofBool b).setWidth 8 <<< (j % 8)).getLsbD (k % 8) = (b && decide (k % 8 = j % 8)) := by
    rw [BitVec.getLsbD_shiftLeft, BitVec.getLsbD_setWidth, BitVec.getLsbD_ofBool,
      decide_eq_true (show k % 8 < 8 by omega)]
    rcases Nat.lt_trichotomy (k % 8) (j % 8) with h | h | h
    · simp [h, show k % 8 ≠ j % 8 by omega]
    · simp [h]
    · simp [show ¬k % 8 < j % 8 by omega, show k % 8 ≠ j % 8 by omega,
        show k % 8 - j % 8 ≠ 0 by omega]
  rw [putBit, bitAt_store, BitVec.getLsbD_or, hbit]
  by_cases hk : k / 8 = j / 8
  · rw [if_pos hk]
    have hold : (if j % 8 = 0 then (0 : BitVec 8) else m (j / 8)).getLsbD (k % 8) =
        if j % 8 = 0 then false else bitAt m k := by
      split
      · simp
      · rw [bitAt, hk]
    rw [hold]
    rcases Nat.lt_trichotomy k j with hlt | rfl | hgt
    · rw [if_neg (by omega), if_neg (by omega), if_neg (by omega)]
      simp [show k % 8 ≠ j % 8 by omega]
    · rw [if_pos rfl]
      by_cases h0 : k % 8 = 0
      · simp [h0]
      · simp [h0, h h0 k le_rfl rfl]
    · rw [if_neg (by omega : ¬k = j), if_pos (show j < k ∧ k / 8 = j / 8 from ⟨hgt, hk⟩)]
      by_cases h0 : j % 8 = 0
      · simp [h0, show k % 8 ≠ 0 by omega]
      · simp [h h0 k hgt.le hk, show k % 8 ≠ j % 8 by omega]
  · rw [if_neg hk, if_neg (by rintro rfl; exact hk rfl), if_neg (by omega)]

theorem Clear.putBit (h : Clear m j) (b : Bool) :
    Clear (putBit m j b) (j + 1) := by
  intro hj k hk hk8
  rw [bitAt_putBit h, if_neg (by omega), if_pos ⟨by omega, by omega⟩]

/-! ## A run of bits -/

theorem putBits_append (m : Mem (BitVec 8)) (j : ℕ) (bs cs : List Bool) :
    putBits m j (bs ++ cs) = putBits (putBits m j bs) (j + bs.length) cs := by
  induction bs generalizing m j with
  | nil => rfl
  | cons b bs ih =>
    rw [List.cons_append, putBits, ih, List.length_cons, putBits]
    congr 1
    omega

theorem Clear.putBits (h : Clear m j) (bs : List Bool) :
    Clear (putBits m j bs) (j + bs.length) := by
  induction bs generalizing m j with
  | nil => exact h
  | cons b bs ih =>
    rw [List.length_cons, Nat.add_comm bs.length, ← Nat.add_assoc]
    exact ih (h.putBit b)

theorem bitAt_putBits_lt {k : ℕ} (h : Clear m j) (bs : List Bool)
    (hk : k < j) : bitAt (putBits m j bs) k = bitAt m k := by
  induction bs generalizing m j with
  | nil => rfl
  | cons b bs ih =>
    rw [putBits, ih (h.putBit b) (by omega), bitAt_putBit h, if_neg (by omega), if_neg (by omega)]

/-- Bytes past the one that holds the last bit are not touched. -/
theorem bitAt_putBits_ge {k : ℕ} (h : Clear m j) (bs : List Bool)
    (hk : j + bs.length ≤ k / 8 * 8) : bitAt (putBits m j bs) k = bitAt m k := by
  induction bs generalizing m j with
  | nil => rfl
  | cons b bs ih =>
    rw [List.length_cons] at hk
    rw [putBits, ih (h.putBit b) (by omega), bitAt_putBit h, if_neg (by omega), if_neg (by omega)]

/-- **A run of bits is there after it was stored.** -/
theorem slice_putBits (h : Clear m j) (bs : List Bool) :
    (bitAt (putBits m j bs)).slice j bs.length = bs := by
  induction bs generalizing m j with
  | nil => rfl
  | cons b bs ih =>
    rw [List.length_cons, Mem.slice_succ, putBits, ih (h.putBit b),
      bitAt_putBits_lt (h.putBit b) bs (by omega), bitAt_putBit h, if_pos rfl]

/-- Eight bits that fill a byte are a store of the byte. -/
theorem putBits_byte (m : Mem (BitVec 8)) (hj : j % 8 = 0) (x : BitVec 8) :
    putBits m j (Mem.slice x.getLsbD 0 8) = m.store (j / 8) x := by
  have hc : Clear m j := clear_of_mod_eq_zero hj
  refine ext_bitAt fun k => ?_
  rw [bitAt_store]
  have hlen : (Mem.slice x.getLsbD 0 8).length = 8 := Mem.length_slice _ _ _
  by_cases hk : k / 8 = j / 8
  · rw [if_pos hk]
    have e := slice_putBits hc (Mem.slice x.getLsbD 0 8)
    have hi : k - j < 8 := by omega
    have e' := List.getElem_of_eq e (i := k - j) (by simpa using hi)
    rw [Mem.getElem_slice, Mem.getElem_slice] at e'
    rwa [show j + (k - j) = k by omega, show 0 + (k - j) = k % 8 by omega] at e'
  · rw [if_neg hk]
    rcases Nat.lt_or_ge k j with h | h
    · exact bitAt_putBits_lt hc _ h
    · exact bitAt_putBits_ge hc _ (by omega)

end BitBuffer
