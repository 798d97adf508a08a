import FteQuake.Common.Infobuf
import Mathlib.Data.List.GetD

/-!
# UTF-8

`utf8_decode` and `utf8_encode` of `common.c`. A string is given by the bytes before its terminator; a read
at or behind their end finds the terminator.

The sequence of six bytes tests only four of its five continuation bytes, so that the decoder steps
over the terminator when it comes in place of the last one (`utf8Decode_length_le_iff`). The encoder counts
bytes with a limit that is shifted until it is above the code, and from `2^31` on the limit is shifted
out of its word (`utf8Encode_iff`).
-/

namespace FteQuake

open List Option BitVec

namespace Utf8

/-! ## The decoder -/

/-- What `utf8_decode` gives: the character, `*error`, and how far `*out` is ahead of `in`. -/
structure Decoded where
  code : BitVec 32
  error : ℕ
  length : ℕ
  deriving DecidableEq

/-- `(b & 0xc0) == 0x80`. -/
def Continues (b : QByte) : Prop := b &&& 0xc0 = 0x80

instance (b : QByte) : Decidable (Continues b) := inferInstanceAs (Decidable (_ = _))

/-- The bits of a sequence of `n + 1` bytes, those of the first one under a mask. -/
def sequenceBits (s : List QByte) (mask : QByte) : ℕ → BitVec 32
  | 0 => (s.getD 0 0 &&& mask).setWidth 32
  | n + 1 => sequenceBits s mask n <<< 6 ||| (s.getD (n + 1) 0 &&& 0x3f).setWidth 32

/-- A branch of `utf8_decode`: a sequence of `length` bytes, of which `tests` behind the first are
tested. A code below `least` is over-long, but for a zero where `modified`. -/
def decodeSequence (s : List QByte) (length tests : ℕ) (mask : QByte) (least : BitVec 32) (modified : Bool) :
    Decoded :=
  if ∀ k < tests, Continues (s.getD (k + 1) 0) then
    let uc := sequenceBits s mask (length - 1)
    ⟨uc, if (modified ∧ uc = 0) ∨ least ≤ uc then 0 else 2, length⟩
  else ⟨0xfffd, 1, 1⟩

/-- `utf8_decode` before its tests for surrogates. -/
def utf8Sequence (s : List QByte) : Decoded :=
  let b := s.getD 0 0
  if b &&& 0xe0 = 0xc0 then decodeSequence s 2 1 0x1f (1#32 <<< 7) true
  else if b &&& 0xf0 = 0xe0 then decodeSequence s 3 2 0x0f (1#32 <<< 11) false
  else if b &&& 0xf8 = 0xf0 then decodeSequence s 4 3 0x07 (1#32 <<< 16) false
  else if b &&& 0xfc = 0xf8 then decodeSequence s 5 4 0x03 (1#32 <<< 21) false
  else if b &&& 0xfe = 0xfc then decodeSequence s 6 4 0x01 (1#32 <<< 26) false
  else if b &&& 0x80 ≠ 0 then ⟨0xe000 + b.setWidth 32, 1, 1⟩
  else ⟨b.setWidth 32, 0, 1⟩

/-- The end of `utf8_decode`, behind the test for a lead surrogate. -/
def Decoded.refuse (r : Decoded) : Decoded :=
  let r := if 0xdc00 ≤ r.code ∧ r.code < 0xe000 then { r with error := 4 } else r
  if r.code = 0xfffe ∨ r.code = 0xffff ∨ 0x10ffff < r.code then { r with error := 2 } else r

section Sequence

variable {s : List QByte} {k : ℕ}

/-- What is behind the end of a string is no continuation. -/
theorem Continues.lt (h : Continues (s.getD k 0)) : k < s.length := by
  by_contra hle
  rw [getD_eq_default _ _ (not_lt.mp hle)] at h
  exact absurd h (by decide)

theorem and_0x3f (b : QByte) : (b &&& 0x3f).toNat = b.toNat % 64 := by
  rw [BitVec.toNat_and, show (0x3f : QByte).toNat = 2 ^ 6 - 1 from rfl, Nat.and_two_pow_sub_one_eq_mod]

theorem toNat_shiftLeft_or {x y : BitVec 32} {i : ℕ} (hx : x.toNat * 2 ^ i < 2 ^ 32) (hy : y.toNat < 2 ^ i) :
    (x <<< i ||| y).toNat = x.toNat * 2 ^ i + y.toNat := by
  rw [BitVec.toNat_or, toNat_shiftLeft, Nat.shiftLeft_eq, Nat.mod_eq_of_lt hx, ← Nat.shiftLeft_eq,
    Nat.shiftLeft_add_eq_or_of_lt hy]

/-- One more byte of a sequence. -/
theorem toNat_sequenceBits_succ {mask : QByte} {n : ℕ} (h : (sequenceBits s mask n).toNat * 2 ^ 6 < 2 ^ 32) :
    (sequenceBits s mask (n + 1)).toNat = (sequenceBits s mask n).toNat * 2 ^ 6 + (s.getD (n + 1) 0).toNat % 64 := by
  have hlow : ((s.getD (n + 1) 0 &&& 0x3f).setWidth 32 : BitVec 32).toNat = (s.getD (n + 1) 0).toNat % 64 := by
    rw [BitVec.toNat_setWidth, and_0x3f]
    omega
  rw [sequenceBits, toNat_shiftLeft_or h (by rw [hlow]; omega), hlow]

theorem sequenceBits_zero_le (mask : QByte) : (sequenceBits s mask 0).toNat ≤ mask.toNat := by
  rw [sequenceBits, BitVec.toNat_setWidth, BitVec.toNat_and]
  exact (Nat.mod_le _ _).trans Nat.and_le_right

theorem decodeSequence_error {length tests : ℕ} {mask : QByte} {least : BitVec 32} {modified : Bool}
    (h : (decodeSequence s length tests mask least modified).error = 0) :
    (∀ k < tests, Continues (s.getD (k + 1) 0)) ∧
      decodeSequence s length tests mask least modified = ⟨sequenceBits s mask (length - 1), 0, length⟩ ∧
      ((modified = true ∧ sequenceBits s mask (length - 1) = 0) ∨ least ≤ sequenceBits s mask (length - 1)) := by
  unfold decodeSequence at h ⊢
  by_cases htests : ∀ k < tests, Continues (s.getD (k + 1) 0)
  · rw [if_pos htests] at h ⊢
    by_cases hleast : (modified = true ∧ sequenceBits s mask (length - 1) = 0) ∨
        least ≤ sequenceBits s mask (length - 1)
    · exact ⟨htests, by simp only [if_pos hleast], hleast⟩
    · simp only [if_neg hleast] at h
      cases h
  · rw [if_neg htests] at h
    cases h

/-- A sequence of four bytes or more is no surrogate. -/
theorem decodeSequence_not_surrogate {length tests : ℕ} {mask : QByte} {least : BitVec 32}
    (h : (decodeSequence s length tests mask least false).error = 0) (hleast : 0x10000 ≤ least) :
    0x10000 ≤ (decodeSequence s length tests mask least false).code.toNat := by
  obtain ⟨-, heq, hcode⟩ := decodeSequence_error h
  rw [heq]
  exact (BitVec.le_def.mp hleast).trans (BitVec.le_def.mp (hcode.resolve_left fun hm => Bool.false_ne_true hm.1))

/-- A sequence that is a surrogate has three bytes, all of them in the string. -/
theorem utf8Sequence_surrogate (herror : (utf8Sequence s).error = 0)
    (hlow : 0xd800 ≤ (utf8Sequence s).code.toNat) (hhigh : (utf8Sequence s).code.toNat < 0xe000) :
    (utf8Sequence s).length = 3 ∧ 3 ≤ s.length := by
  unfold utf8Sequence at herror hlow hhigh ⊢
  simp only at herror hlow hhigh ⊢
  split at herror
  · rename_i h₂
    rw [if_pos h₂] at hlow
    obtain ⟨-, heq, -⟩ := decodeSequence_error herror
    have hzero := sequenceBits_zero_le (s := s) 0x1f
    have hmask : (0x1f : QByte).toNat = 31 := rfl
    have hone : (sequenceBits s 0x1f 1).toNat = _ := toNat_sequenceBits_succ (by omega)
    rw [heq] at hlow
    have hlow' : 0xd800 ≤ (sequenceBits s 0x1f 1).toNat := hlow
    omega
  rw [if_neg ‹_›] at hlow hhigh ⊢
  split at herror
  · rw [if_pos ‹_›]
    obtain ⟨htests, heq, -⟩ := decodeSequence_error herror
    have := (htests 1 (by decide)).lt
    exact ⟨by rw [heq], by omega⟩
  rw [if_neg ‹_›] at hlow hhigh ⊢
  -- the longer forms are above the surrogates
  iterate 3
    split at herror
    · rw [if_pos ‹_›] at hhigh
      exact absurd hhigh (not_lt.mpr ((by decide : 0xe000 ≤ 0x10000).trans
        (decodeSequence_not_surrogate herror (by decide))))
    rw [if_neg ‹_›] at hlow hhigh ⊢
  split at herror
  · cases herror
  · rw [if_neg ‹_›] at hlow
    have hbyte := (s.getD 0 0).isLt
    have hlow' : 0xd800 ≤ ((s.getD 0 0).setWidth 32 : BitVec 32).toNat := hlow
    rw [BitVec.toNat_setWidth] at hlow'
    omega

end Sequence

/-- `utf8_decode`. -/
def utf8Decode (s : List QByte) : Decoded :=
  let r := utf8Sequence s
  if r.error = 0 then
    if _h : 0xd800 ≤ r.code ∧ r.code < 0xdc00 then
      let low := utf8Decode (s.drop r.length)
      if low.error = 4 then
        (Decoded.mk ((((r.code &&& 0x3ff) <<< 10) ||| (low.code &&& 0x3ff)) + 0x10000) 0
          (r.length + low.length)).refuse
      else { r with error := 3 }.refuse
    else r.refuse
  else r
termination_by s.length
decreasing_by
  have hlong := utf8Sequence_surrogate ‹_› (BitVec.le_def.mp _h.1)
    ((BitVec.lt_def.mp _h.2).trans (by decide))
  rw [List.length_drop]
  omega

section Inside

variable {s : List QByte} {n : ℕ}

theorem decodeSequence_length_pos {length tests : ℕ} {mask : QByte} {least : BitVec 32} {modified : Bool}
    (h : 0 < length) : 0 < (decodeSequence s length tests mask least modified).length := by
  unfold decodeSequence
  split
  · exact h
  · exact Nat.one_pos

theorem utf8Sequence_length_pos (s : List QByte) : 0 < (utf8Sequence s).length := by
  unfold utf8Sequence
  simp only
  iterate 5
    split
    · exact decodeSequence_length_pos (by decide)
  split <;> exact Nat.one_pos

/-- A sequence of which all bytes are tested ends in the string. -/
theorem decodeSequence_length_le (hs : s ≠ []) {mask : QByte} {least : BitVec 32} {modified : Bool} :
    (decodeSequence s (n + 2) (n + 1) mask least modified).length ≤ s.length := by
  have hpos := length_pos_of_ne_nil hs
  unfold decodeSequence
  split
  · rename_i htests
    exact (htests n (Nat.lt_succ_self n)).lt
  · exact hpos

/-- The last byte of a sequence of six is missing. -/
def CutShort (s : List QByte) : Prop :=
  s.length = 5 ∧ s.getD 0 0 &&& 0xfe = 0xfc ∧ ∀ k < 4, Continues (s.getD (k + 1) 0)

instance (s : List QByte) : Decidable (CutShort s) := inferInstanceAs (Decidable (_ ∧ _))

/-- The first byte of a sequence of six is not that of a shorter one. -/
theorem lead_of_six {b : QByte} (h : b &&& 0xfe = 0xfc) :
    b &&& 0xe0 ≠ 0xc0 ∧ b &&& 0xf0 ≠ 0xe0 ∧ b &&& 0xf8 ≠ 0xf0 ∧ b &&& 0xfc ≠ 0xf8 := by
  have hand (m : QByte) (hm : 0xfe &&& m = m) : b &&& m = 0xfc &&& m := by
    rw [← h, BitVec.and_assoc, hm]
  rw [hand 0xe0 (by decide), hand 0xf0 (by decide), hand 0xf8 (by decide), hand 0xfc (by decide)]
  decide

theorem utf8Sequence_length_le_iff (hs : s ≠ []) : (utf8Sequence s).length ≤ s.length ↔ ¬CutShort s := by
  have hpos := length_pos_of_ne_nil hs
  by_cases hsix : s.getD 0 0 &&& 0xfe = 0xfc
  · obtain ⟨h₂, h₃, h₄, h₅⟩ := lead_of_six hsix
    unfold utf8Sequence
    simp only [if_neg h₂, if_neg h₃, if_neg h₄, if_neg h₅, if_pos hsix]
    unfold decodeSequence CutShort
    by_cases htests : ∀ k < 4, Continues (s.getD (k + 1) 0)
    · have hfive := (htests 3 (by decide)).lt
      rw [if_pos htests]
      show 6 ≤ s.length ↔ _
      refine ⟨fun hle hcut => ?_, fun hcut => ?_⟩
      · have := hcut.1
        omega
      · by_contra hle
        exact hcut ⟨by omega, hsix, htests⟩
    · rw [if_neg htests]
      exact iff_of_true hpos fun h => htests h.2.2
  · refine iff_of_true ?_ fun h => hsix h.2.1
    unfold utf8Sequence
    simp only [if_neg hsix]
    split
    · exact decodeSequence_length_le hs
    split
    · exact decodeSequence_length_le hs
    split
    · exact decodeSequence_length_le hs
    split
    · exact decodeSequence_length_le hs
    split <;> exact hpos

@[simp] theorem refuse_length (r : Decoded) : r.refuse.length = r.length := by
  unfold Decoded.refuse
  simp only
  split <;> split <;> rfl

theorem refuse_error {r : Decoded} (h : r.refuse.error = 4) :
    (0xdc00 ≤ r.code ∧ r.code < 0xe000) ∨ r.error = 4 := by
  unfold Decoded.refuse at h
  simp only at h
  by_cases htail : 0xdc00 ≤ r.code ∧ r.code < 0xe000
  · exact .inl htail
  · rw [if_neg htail] at h
    split at h
    · cases h
    · exact .inr h

theorem utf8Sequence_error_le (s : List QByte) : (utf8Sequence s).error ≤ 2 := by
  have hseq (length tests : ℕ) (mask : QByte) (least : BitVec 32) (modified : Bool) :
      (decodeSequence s length tests mask least modified).error ≤ 2 := by
    unfold decodeSequence
    split
    · simp only
      split <;> decide
    · exact (by decide : 1 ≤ 2)
  unfold utf8Sequence
  simp only
  split
  · exact hseq ..
  split
  · exact hseq ..
  split
  · exact hseq ..
  split
  · exact hseq ..
  split
  · exact hseq ..
  split
  · exact (by decide : 1 ≤ 2)
  · exact (by decide : 0 ≤ 2)

/-- A pair of surrogates gives a character behind them all. -/
theorem pair_ge (high low : BitVec 32) :
    0x10000 ≤ ((((high &&& 0x3ff) <<< 10) ||| (low &&& 0x3ff)) + 0x10000).toNat := by
  have hand (x : BitVec 32) : (x &&& 0x3ff).toNat < 2 ^ 10 := by
    rw [BitVec.toNat_and, show (0x3ff : BitVec 32).toNat = 2 ^ 10 - 1 from rfl, Nat.and_two_pow_sub_one_eq_mod]
    exact Nat.mod_lt _ (by decide)
  have hhigh := hand high
  have hlow := hand low
  rw [toNat_add, toNat_shiftLeft_or (by omega) hlow, show (0x10000 : BitVec 32).toNat = 0x10000 from rfl]
  omega

/-- The decoder where its first sequence is no lead surrogate. -/
theorem utf8Decode_single (h : ¬(0xd800 ≤ (utf8Sequence s).code ∧ (utf8Sequence s).code < 0xdc00)) :
    utf8Decode s = if (utf8Sequence s).error = 0 then (utf8Sequence s).refuse else utf8Sequence s := by
  rw [utf8Decode]
  simp only [dif_neg h]

/-- What is decoded as a tail surrogate is a sequence of its own. -/
theorem utf8Decode_tail (h : (utf8Decode s).error = 4) :
    (utf8Decode s).length = 3 ∧ 3 ≤ s.length := by
  have hle := utf8Sequence_error_le s
  by_cases hlead : 0xd800 ≤ (utf8Sequence s).code ∧ (utf8Sequence s).code < 0xdc00
  · rw [utf8Decode] at h
    simp only [dif_pos hlead] at h
    split at h
    · split at h
      · rcases refuse_error h with ⟨-, hsmall⟩ | hzero
        · have := pair_ge (utf8Sequence s).code (utf8Decode (s.drop (utf8Sequence s).length)).code
          have hsmall' := lt_def.mp hsmall
          simp only at hsmall'
          have : (0xe000 : BitVec 32).toNat = 0xe000 := rfl
          omega
        · cases hzero
      · rcases refuse_error h with ⟨htail, -⟩ | hthree
        · have := BitVec.le_def.mp htail
          have := lt_def.mp hlead.2
          have htail' : (0xdc00 : BitVec 32).toNat ≤ (utf8Sequence s).code.toNat := BitVec.le_def.mp htail
          omega
        · cases hthree
    · omega
  · rw [utf8Decode_single hlead] at h ⊢
    split at h
    · rename_i herror
      rcases refuse_error h with ⟨hlow, hhigh⟩ | hfour
      · rw [if_pos herror, refuse_length]
        exact utf8Sequence_surrogate herror
          ((by decide : 0xd800 ≤ (0xdc00 : BitVec 32).toNat).trans (BitVec.le_def.mp hlow)) (lt_def.mp hhigh)
      · omega
    · omega

/-- Where the decoder steps to. -/
theorem utf8Decode_length_le_iff (hs : s ≠ []) : (utf8Decode s).length ≤ s.length ↔ ¬CutShort s := by
  rw [← utf8Sequence_length_le_iff hs]
  by_cases hlead : 0xd800 ≤ (utf8Sequence s).code ∧ (utf8Sequence s).code < 0xdc00
  · rw [utf8Decode]
    simp only [dif_pos hlead]
    split
    · rename_i herror
      obtain ⟨hthree, hlong⟩ := utf8Sequence_surrogate herror (BitVec.le_def.mp hlead.1)
        ((lt_def.mp hlead.2).trans (by decide))
      split
      · rename_i hfour
        obtain ⟨hlow, hrest⟩ := utf8Decode_tail hfour
        rw [length_drop] at hrest
        rw [refuse_length]
        exact iff_of_true (by simp only; omega) (by omega)
      · rw [refuse_length]
    · rfl
  · rw [utf8Decode_single hlead]
    split
    · rw [refuse_length]
    · rfl

theorem utf8Decode_length_pos (s : List QByte) : 0 < (utf8Decode s).length := by
  have hpos := utf8Sequence_length_pos s
  rw [utf8Decode]
  simp only
  split
  · split
    · split
      · rw [refuse_length]
        exact Nat.add_pos_left hpos _
      · rw [refuse_length]
        exact hpos
    · rw [refuse_length]
      exact hpos
  · exact hpos

end Inside

/-! ## The encoder -/

/-- The loop of `utf8_encode` over `lim` and `bcount`, for so many rounds. -/
def encodeCount (unicode : BitVec 32) : ℕ → BitVec 32 → ℕ → Option ℕ
  | 0, _, _ => none
  | fuel + 1, lim, bcount =>
    if lim ≤ unicode then
      encodeCount unicode fuel
        (if bcount = 1 then lim <<< 4 else if bcount < 7 then lim <<< 5 else lim <<< 6) (bcount + 1)
    else some bcount

/-- The bytes behind the first, of which the last one has no shift. -/
def encodeTail (unicode : BitVec 32) : ℕ → List QByte
  | 0 => []
  | n + 1 => (((unicode >>> (6 * n)) &&& 0x3f).setWidth 8 ||| 0x80) :: encodeTail unicode n

/-- The bytes of a code, when `bcount` of them are needed. -/
def encodeBytes (unicode : BitVec 32) (bcount : ℕ) : List QByte :=
  if bcount = 1 then [(unicode &&& 0x7f).setWidth 8]
  else
    ((unicode >>> (6 * (bcount - 1)) &&& (0x7f#32 >>> bcount)).setWidth 8
        ||| ((0xffffff00#32 >>> bcount) &&& 0xff).setWidth 8)
      :: encodeTail unicode (bcount - 1)

/-- `utf8_encode`, with so many rounds for its loop: the result, and the bytes that it writes. `maxlen` is an
`int`, compared with an `unsigned int`. -/
def utf8Encode (fuel : ℕ) (unicode : BitVec 32) (maxlen : BitVec 32) : Option (ℕ × List QByte) :=
  (if unicode = 0 then some 2 else encodeCount unicode fuel 0x80 1).map fun bcount =>
    if maxlen.toNat < bcount then (0, []) else (bcount, encodeBytes unicode bcount)

/-- How many bytes a code takes, if it is below `2^31`. -/
def byteCount (unicode : ℕ) : ℕ :=
  if unicode = 0 then 2
  else if unicode < 2 ^ 7 then 1
  else if unicode < 2 ^ 11 then 2
  else if unicode < 2 ^ 16 then 3
  else if unicode < 2 ^ 21 then 4
  else if unicode < 2 ^ 26 then 5
  else 6

theorem byteCount_pos (c : ℕ) : 0 < byteCount c := by
  unfold byteCount
  split_ifs <;> decide

section Encode

variable {c maxlen : BitVec 32} {fuel : ℕ}

/-- When the limit has been shifted out, the loop does not end. -/
theorem encodeCount_zero (c : BitVec 32) (fuel bcount : ℕ) : encodeCount c fuel 0 bcount = none := by
  induction fuel generalizing bcount with
  | zero => rfl
  | succ fuel ih =>
    rw [encodeCount, if_pos (BitVec.le_def.mpr (Nat.zero_le _))]
    have hzero (n : ℕ) : (0 : BitVec 32) <<< n = 0 := zero_shiftLeft n
    simp only [hzero, ite_self]
    exact ih (bcount + 1)

/-- A round of the loop. -/
theorem encodeCount_succ {lim next : BitVec 32} {bcount : ℕ}
    (hnext : (if bcount = 1 then lim <<< 4 else if bcount < 7 then lim <<< 5 else lim <<< 6) = next) :
    encodeCount c (fuel + 1) lim bcount
      = if lim.toNat ≤ c.toNat then encodeCount c fuel next (bcount + 1) else some bcount := by
  rw [encodeCount, hnext]
  by_cases h : lim ≤ c
  · rw [if_pos h, if_pos (BitVec.le_def.mp h)]
  · rw [if_neg h, if_neg fun hle => h (BitVec.le_def.mpr hle)]

/-- The loop ends in at most six rounds, or not at all. -/
theorem encodeCount_eq (hc : c ≠ 0) :
    encodeCount c (fuel + 6) 0x80 1 = if c.toNat < 2 ^ 31 then some (byteCount c.toNat) else none := by
  have hzero : c.toNat ≠ 0 := fun h => hc (eq_of_toNat_eq h)
  rw [@encodeCount_succ c _ _ 0x800 _ rfl, @encodeCount_succ c _ _ 0x10000 _ rfl,
    @encodeCount_succ c _ _ 0x200000 _ rfl, @encodeCount_succ c _ _ 0x4000000 _ rfl,
    @encodeCount_succ c _ _ 0x80000000 _ rfl, @encodeCount_succ c _ _ 0 _ rfl, encodeCount_zero]
  simp only [BitVec.reduceToNat]
  unfold byteCount
  rw [if_neg hzero]
  split_ifs <;> first | rfl | omega

theorem encodeCount_mono {lim : BitVec 32} {bcount r : ℕ} (h : encodeCount c fuel lim bcount = some r) :
    encodeCount c (fuel + 1) lim bcount = some r := by
  induction fuel generalizing lim bcount with
  | zero => cases h
  | succ fuel ih =>
    rw [encodeCount] at h ⊢
    split at h
    · rw [if_pos ‹_›]
      exact ih h
    · rw [if_neg ‹_›]
      exact h

/-- What the loop gives, if it gives anything. -/
theorem encodeCount_some {r : ℕ} (hc : c ≠ 0) (h : encodeCount c fuel 0x80 1 = some r) :
    c.toNat < 2 ^ 31 ∧ r = byteCount c.toNat := by
  have hmore : encodeCount c (fuel + 6) 0x80 1 = some r := by
    iterate 6 apply encodeCount_mono
    exact h
  rw [encodeCount_eq hc] at hmore
  split at hmore
  · exact ⟨‹_›, (some.inj hmore).symm⟩
  · cases hmore

theorem length_encodeTail (c : BitVec 32) (n : ℕ) : (encodeTail c n).length = n := by
  induction n with
  | zero => rfl
  | succ n ih => rw [encodeTail, length_cons, ih]

theorem length_encodeBytes (c : BitVec 32) {bcount : ℕ} (h : 0 < bcount) : (encodeBytes c bcount).length = bcount := by
  unfold encodeBytes
  split
  · rename_i hone
    rw [hone]
    rfl
  · rw [length_cons, length_encodeTail]
    omega

/-- What the encoder gives, if it gives anything. -/
theorem utf8Encode_some {r : ℕ × List QByte} (h : utf8Encode fuel c maxlen = some r) :
    c.toNat < 2 ^ 31 ∧ r = if maxlen.toNat < byteCount c.toNat then (0, [])
      else (byteCount c.toNat, encodeBytes c (byteCount c.toNat)) := by
  obtain ⟨bcount, hcount, rfl⟩ := map_eq_some_iff.mp h
  by_cases hc : c = 0
  · subst hc
    rw [if_pos rfl] at hcount
    obtain rfl := some.inj hcount
    exact ⟨by decide, rfl⟩
  · rw [if_neg hc] at hcount
    obtain ⟨hlt, rfl⟩ := encodeCount_some hc hcount
    exact ⟨hlt, rfl⟩

theorem utf8Encode_eq (h : c.toNat < 2 ^ 31) : utf8Encode 6 c maxlen =
    some (if maxlen.toNat < byteCount c.toNat then (0, [])
      else (byteCount c.toNat, encodeBytes c (byteCount c.toNat))) := by
  have hcount : (if c = 0 then some 2 else encodeCount c 6 0x80 1) = some (byteCount c.toNat) := by
    by_cases hc : c = 0
    · subst hc
      rfl
    · rw [if_neg hc, ← Nat.zero_add 6, encodeCount_eq hc, if_pos h]
  rw [utf8Encode, hcount, map_some]

end Encode

section RoundTrip

variable {c : BitVec 32} {n : ℕ}

theorem continues_iff (b : QByte) : Continues b ↔ 0x80 ≤ b.toNat ∧ b.toNat < 0xc0 := by
  revert b
  decide +kernel

/-- The first byte of a sequence says how long it is. -/
theorem lead_iff (b : QByte) : (b &&& 0xe0 = 0xc0 ↔ 0xc0 ≤ b.toNat ∧ b.toNat < 0xe0) ∧
    (b &&& 0xf0 = 0xe0 ↔ 0xe0 ≤ b.toNat ∧ b.toNat < 0xf0) ∧
    (b &&& 0xf8 = 0xf0 ↔ 0xf0 ≤ b.toNat ∧ b.toNat < 0xf8) ∧
    (b &&& 0xfc = 0xf8 ↔ 0xf8 ≤ b.toNat ∧ b.toNat < 0xfc) ∧
    (b &&& 0xfe = 0xfc ↔ 0xfc ≤ b.toNat ∧ b.toNat < 0xfe) ∧ (b &&& 0x80 ≠ 0 ↔ 0x80 ≤ b.toNat) := by
  revert b
  decide +kernel

/-- A byte behind the first one. -/
theorem toNat_encodeTail (c : BitVec 32) (s : List QByte) {n k : ℕ} (hk : k < n) :
    ((encodeTail c n ++ s).getD k 0).toNat = 0x80 + c.toNat / 2 ^ (6 * (n - 1 - k)) % 64 := by
  induction n generalizing k with
  | zero => omega
  | succ n ih =>
    cases k with
    | zero =>
      rw [encodeTail, List.cons_append, List.getD_cons_zero, Nat.add_sub_cancel, Nat.sub_zero, BitVec.toNat_or,
        BitVec.toNat_setWidth, BitVec.toNat_and, BitVec.toNat_ushiftRight, Nat.shiftRight_eq_div_pow,
        show (0x3f : BitVec 32).toNat = 2 ^ 6 - 1 from rfl, Nat.and_two_pow_sub_one_eq_mod, Nat.or_comm,
        show (0x80 : QByte).toNat = 1 <<< 7 from rfl, ← Nat.shiftLeft_add_eq_or_of_lt (by omega)]
      simp only [Nat.shiftLeft_eq]
      omega
    | succ k =>
      rw [encodeTail, List.cons_append, List.getD_cons_succ, ih (by omega)]
      congr 5
      omega

/-- The bits of a sequence are those that were encoded. -/
theorem sequenceBits_encode {lead mask : QByte} (s : List QByte)
    (hlead : (lead &&& mask).toNat = c.toNat / 2 ^ (6 * n)) :
    sequenceBits (lead :: encodeTail c n ++ s) mask n = c := by
  have hbits (k : ℕ) (hk : k ≤ n) :
      (sequenceBits (lead :: encodeTail c n ++ s) mask k).toNat = c.toNat / 2 ^ (6 * (n - k)) := by
    induction k with
    | zero =>
      rw [sequenceBits, List.cons_append, List.getD_cons_zero, BitVec.toNat_setWidth, hlead, Nat.sub_zero]
      exact Nat.mod_eq_of_lt ((Nat.div_le_self _ _).trans_lt c.isLt)
    | succ k ih =>
      have hprev := ih (by omega)
      have hsplit : 2 ^ (6 * (n - k)) = 2 ^ (6 * (n - (k + 1))) * 64 := by
        rw [show n - k = n - (k + 1) + 1 by omega, Nat.mul_succ, pow_add]
        rfl
      rw [hsplit, ← Nat.div_div_eq_div_mul] at hprev
      have hle : c.toNat / 2 ^ (6 * (n - (k + 1))) ≤ c.toNat := Nat.div_le_self _ _
      have hc := c.isLt
      rw [toNat_sequenceBits_succ (by rw [hprev]; omega), hprev, List.cons_append, List.getD_cons_succ,
        toNat_encodeTail c s (by omega), show n - 1 - k = n - (k + 1) by omega]
      omega
  apply eq_of_toNat_eq
  rw [hbits n le_rfl, Nat.sub_self, Nat.mul_zero, pow_zero, Nat.div_one]

/-- A sequence that was encoded is decoded. -/
theorem decodeSequence_encode {lead mask : QByte} {least : BitVec 32} {modified : Bool} (s : List QByte)
    (hlead : (lead &&& mask).toNat = c.toNat / 2 ^ (6 * n)) (hleast : (modified ∧ c = 0) ∨ least ≤ c) :
    decodeSequence (lead :: encodeTail c n ++ s) (n + 1) n mask least modified = ⟨c, 0, n + 1⟩ := by
  have htests : ∀ k < n, Continues ((lead :: encodeTail c n ++ s).getD (k + 1) 0) := by
    intro k hk
    rw [continues_iff, List.cons_append, List.getD_cons_succ, toNat_encodeTail c s hk]
    omega
  unfold decodeSequence
  rw [if_pos htests, Nat.add_sub_cancel, sequenceBits_encode s hlead]
  simp only [if_pos hleast]

/-- The first byte of what is encoded. -/
theorem toNat_lead {m q : ℕ} (hmask : (0x7f#32 >>> n).toNat = 2 ^ m - 1) (hm : m ≤ 8)
    (hmark : (((0xffffff00#32 >>> n) &&& 0xff).setWidth 8 : QByte).toNat = q * 2 ^ m) (x : BitVec 32) :
    ((x &&& (0x7f#32 >>> n)).setWidth 8 ||| ((0xffffff00#32 >>> n) &&& 0xff).setWidth 8 : QByte).toNat
      = q * 2 ^ m + x.toNat % 2 ^ m := by
  have hlow : ((x &&& (0x7f#32 >>> n)).setWidth 8 : QByte).toNat = x.toNat % 2 ^ m := by
    rw [BitVec.toNat_setWidth, BitVec.toNat_and, hmask, Nat.and_two_pow_sub_one_eq_mod]
    have hpow : 2 ^ m ≤ 2 ^ 8 := Nat.pow_le_pow_right (by decide) hm
    exact Nat.mod_eq_of_lt ((Nat.mod_lt _ (Nat.two_pow_pos m)).trans_le hpow)
  rw [BitVec.toNat_or, hlow, hmark, Nat.or_comm, ← Nat.shiftLeft_eq,
    Nat.shiftLeft_add_eq_or_of_lt (Nat.mod_lt _ (Nat.two_pow_pos m))]

theorem toNat_and_mask (b : QByte) {mask : QByte} {m : ℕ} (hmask : mask.toNat = 2 ^ m - 1) :
    (b &&& mask).toNat = b.toNat % 2 ^ m := by
  rw [BitVec.toNat_and, hmask, Nat.and_two_pow_sub_one_eq_mod]

/-- The shift leaves the bits that are for the first byte. -/
theorem toNat_shift (c : BitVec 32) (n : ℕ) : (c >>> (6 * n)).toNat = c.toNat / 2 ^ (6 * n) := by
  rw [BitVec.toNat_ushiftRight, Nat.shiftRight_eq_div_pow]

/-- What is encoded in up to four bytes is one sequence. -/
theorem utf8Sequence_encode (s : List QByte) (hc : c.toNat < 2 ^ 21) :
    utf8Sequence (encodeBytes c (byteCount c.toNat) ++ s) = ⟨c, 0, byteCount c.toNat⟩ := by
  by_cases hone : byteCount c.toNat = 1
  · have hlt : c.toNat < 2 ^ 7 := by
      unfold byteCount at hone
      split_ifs at hone <;> omega
    have hbyte : ((c &&& 0x7f).setWidth 8 : QByte).toNat = c.toNat := by
      rw [BitVec.toNat_setWidth, BitVec.toNat_and, show (0x7f : BitVec 32).toNat = 2 ^ 7 - 1 from rfl,
        Nat.and_two_pow_sub_one_eq_mod]
      omega
    obtain ⟨h₂, h₃, h₄, h₅, h₆, h₁⟩ := lead_iff ((c &&& 0x7f).setWidth 8)
    rw [hone, encodeBytes, if_pos rfl]
    unfold utf8Sequence
    simp only [List.cons_append, List.getD_cons_zero]
    rw [if_neg (by rw [h₂]; omega), if_neg (by rw [h₃]; omega), if_neg (by rw [h₄]; omega),
      if_neg (by rw [h₅]; omega), if_neg (by rw [h₆]; omega), if_neg (by rw [h₁]; omega)]
    have hcode : ((c &&& 0x7f).setWidth 8 : QByte).setWidth 32 = c := by
      apply eq_of_toNat_eq
      rw [BitVec.toNat_setWidth, hbyte]
      omega
    rw [hcode]
  have hmany (n : ℕ) (hn : byteCount c.toNat = n + 1) (hpos : 0 < n) :
      encodeBytes c (byteCount c.toNat) = ((c >>> (6 * n) &&& (0x7f#32 >>> (n + 1))).setWidth 8
        ||| ((0xffffff00#32 >>> (n + 1)) &&& 0xff).setWidth 8) :: encodeTail c n := by
    rw [hn, encodeBytes, if_neg (by omega), Nat.add_sub_cancel]
  have hrange : (byteCount c.toNat = 2 ∧ (c.toNat = 0 ∨ 2 ^ 7 ≤ c.toNat) ∧ c.toNat < 2 ^ 11) ∨
      (byteCount c.toNat = 3 ∧ 2 ^ 11 ≤ c.toNat ∧ c.toNat < 2 ^ 16) ∨
      (byteCount c.toNat = 4 ∧ 2 ^ 16 ≤ c.toNat) := by
    unfold byteCount at hone ⊢
    split_ifs at hone ⊢ <;> simp_all
  rcases hrange with ⟨htwo, hleast, hlt⟩ | ⟨hthree, hleast, hlt⟩ | ⟨hfour, hleast⟩
  · have hlead := @toNat_lead 2 5 6 rfl (by decide) rfl (c >>> (6 * 1))
    rw [toNat_shift] at hlead
    rw [hmany 1 htwo (by decide), htwo]
    generalize ((c >>> (6 * 1) &&& (0x7f#32 >>> 2)).setWidth 8
      ||| ((0xffffff00#32 >>> 2) &&& 0xff).setWidth 8 : QByte) = lead at hlead
    obtain ⟨h₂, -⟩ := lead_iff lead
    unfold utf8Sequence
    simp only [List.cons_append, List.getD_cons_zero]
    rw [if_pos (h₂.mpr (by omega))]
    refine decodeSequence_encode s ?_ ?_
    · rw [toNat_and_mask lead (m := 5) rfl, hlead]
      omega
    · rcases hleast with hzero | hleast
      · exact .inl ⟨rfl, eq_of_toNat_eq hzero⟩
      · exact .inr (BitVec.le_def.mpr hleast)
  · have hlead := @toNat_lead 3 4 14 rfl (by decide) rfl (c >>> (6 * 2))
    rw [toNat_shift] at hlead
    rw [hmany 2 hthree (by decide), hthree]
    generalize ((c >>> (6 * 2) &&& (0x7f#32 >>> 3)).setWidth 8
      ||| ((0xffffff00#32 >>> 3) &&& 0xff).setWidth 8 : QByte) = lead at hlead
    obtain ⟨h₂, h₃, -⟩ := lead_iff lead
    unfold utf8Sequence
    simp only [List.cons_append, List.getD_cons_zero]
    rw [if_neg (by rw [h₂]; omega), if_pos (h₃.mpr (by omega))]
    refine decodeSequence_encode s ?_ (.inr (BitVec.le_def.mpr hleast))
    rw [toNat_and_mask lead (m := 4) rfl, hlead]
    omega
  · have hlead := @toNat_lead 4 3 30 rfl (by decide) rfl (c >>> (6 * 3))
    rw [toNat_shift] at hlead
    rw [hmany 3 hfour (by decide), hfour]
    generalize ((c >>> (6 * 3) &&& (0x7f#32 >>> 4)).setWidth 8
      ||| ((0xffffff00#32 >>> 4) &&& 0xff).setWidth 8 : QByte) = lead at hlead
    obtain ⟨h₂, h₃, h₄, -⟩ := lead_iff lead
    unfold utf8Sequence
    simp only [List.cons_append, List.getD_cons_zero]
    rw [if_neg (by rw [h₂]; omega), if_neg (by rw [h₃]; omega), if_pos (h₄.mpr (by omega))]
    refine decodeSequence_encode s ?_ (.inr (BitVec.le_def.mpr hleast))
    rw [toNat_and_mask lead (m := 3) rfl, hlead]
    omega

/-- A Unicode scalar value, but for the two that the decoder refuses. -/
def Scalar (c : BitVec 32) : Prop :=
  c.toNat ≤ 0x10ffff ∧ ¬(0xd800 ≤ c.toNat ∧ c.toNat < 0xe000) ∧ c.toNat ≠ 0xfffe ∧ c.toNat ≠ 0xffff

theorem utf8Decode_encode (s : List QByte) (hc : Scalar c) :
    utf8Decode (encodeBytes c (byteCount c.toNat) ++ s) = ⟨c, 0, byteCount c.toNat⟩ := by
  obtain ⟨hmax, hsurrogate, hfffe, hffff⟩ := hc
  have hseq := utf8Sequence_encode s (c := c) (by omega)
  have hlead : ¬(0xd800 ≤ c ∧ c < 0xdc00) := fun h => hsurrogate
    ⟨BitVec.le_def.mp h.1, (lt_def.mp h.2).trans (by decide)⟩
  have htail : ¬(0xdc00 ≤ c ∧ c < 0xe000) := fun h => hsurrogate
    ⟨(by decide : 0xd800 ≤ (0xdc00 : BitVec 32).toNat).trans (BitVec.le_def.mp h.1), lt_def.mp h.2⟩
  have hillegal : ¬(c = 0xfffe ∨ c = 0xffff ∨ 0x10ffff < c) := by
    rintro (rfl | rfl | h)
    · exact hfffe rfl
    · exact hffff rfl
    · exact absurd (lt_def.mp h) (not_lt.mpr hmax)
  rw [utf8Decode_single (by rwa [hseq]), hseq, if_pos rfl, Decoded.refuse]
  simp only
  rw [if_neg htail, if_neg hillegal]

end RoundTrip

/-- **The encoder returns, and has written as many bytes as it says and `maxlen` allows, if and only if
the code is below `2^31` and `maxlen` is not negative. What it writes of a Unicode scalar value is decoded
again.** -/
theorem utf8Encode_iff (c maxlen : BitVec 32) :
    ((∃ fuel r, utf8Encode fuel c maxlen = some r ∧ r.2.length = r.1 ∧ (r.1 : ℤ) ≤ maxlen.toInt) ↔
      c.toNat < 2 ^ 31 ∧ 0 ≤ maxlen.toInt) ∧
    (Scalar c → ∀ fuel n bytes, utf8Encode fuel c maxlen = some (n, bytes) → n ≠ 0 → ∀ s,
      utf8Decode (bytes ++ s) = ⟨c, 0, bytes.length⟩) := by
  have hpos := byteCount_pos c.toNat
  constructor
  · constructor
    · rintro ⟨fuel, r, hr, -, hle⟩
      exact ⟨(utf8Encode_some hr).1, (Int.natCast_nonneg _).trans hle⟩
    · rintro ⟨hc, hmaxlen⟩
      have hint : maxlen.toInt = maxlen.toNat := BitVec.toInt_eq_toNat_of_lt (by
        have := BitVec.toInt_eq_toNat_cond maxlen
        split at this <;> omega)
      refine ⟨6, _, utf8Encode_eq hc, ?_⟩
      by_cases hfits : maxlen.toNat < byteCount c.toNat
      · rw [if_pos hfits]
        exact ⟨rfl, hmaxlen⟩
      · rw [if_neg hfits]
        exact ⟨length_encodeBytes c hpos, by simp only; omega⟩
  · intro hscalar fuel n bytes h hn s
    obtain ⟨-, heq⟩ := utf8Encode_some h
    split at heq
    · exact absurd (Prod.mk.inj heq).1 hn
    · obtain ⟨-, rfl⟩ := Prod.mk.inj heq
      rw [utf8Decode_encode s hscalar, length_encodeBytes c hpos]

/-- On the code `80000000` the encoder does not return. -/
theorem utf8Encode_hangs : ¬∃ fuel r, utf8Encode fuel 0x80000000 6 = some r := by
  rintro ⟨fuel, r, hr⟩
  exact absurd (utf8Encode_some hr).1 (by decide)

end Utf8

end FteQuake
