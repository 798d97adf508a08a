import FteQuake.Common.MsgScalars

/-!
# Variable-length integers

The two variable-length codecs of `common.c`.

* `MSG_WriteULEB128` sends base-128 groups, low first. Its reader assembles each group in an `int`,
  so it gives back a number only below `2^31` (`msgULEB128_roundTrip_iff`); the fifth group spills
  into the sign, and from the sixth on the shift is undefined.
* `MSG_WriteUInt64` sends the number of extra bytes as leading ones of the first. Its reader gives
  back every number (`msgUInt64_roundTrip`), in the least number of bytes the scheme has for it
  (`length_uInt64Bytes`), and no encoding is a prefix of another.

Signed numbers go through the same recoding in both (`foldSign`, `unfoldSign`).
-/

namespace FteQuake

open StreamProgram MsgState Sizebuf List Option BitVec
open Nat (mod_eq_of_lt mod_lt pow_add pow_le_pow_right two_pow_pos)

/-! ## The sign -/

variable (c : BitVec 64)

theorem toNat_foldSign :
    ((foldSign c).toNat : Int) = if c.toInt < 0 then 2 * (-1 - c.toInt) + 1 else 2 * c.toInt := by
  have hc := c.isLt
  have hi := toInt_eq_toNat_cond c
  rw [foldSign, slt_eq_decide, show (0 : BitVec 64).toInt = 0 from rfl]
  by_cases h : c.toInt < 0
  · rw [if_pos (decide_eq_true h), if_pos h]
    have e : ((-1#64 - c) <<< 1).toNat = 2 ^ 1 * (2 ^ 64 - 1 - c.toNat) := by
      rw [toNat_shiftLeft, toNat_sub, show (-1#64).toNat = 2 ^ 64 - 1 from rfl, Nat.shiftLeft_eq]
      split at hi <;> omega
    rw [toNat_or, e, show (1 : BitVec 64).toNat = 1 from rfl, ← Nat.two_pow_add_eq_or_of_lt (by omega)]
    split at hi <;> omega
  · rw [if_neg (by simpa using h), if_neg h, toNat_shiftLeft, Nat.shiftLeft_eq]
    split at hi <;> omega

theorem toInt_unfoldSign : (unfoldSign c).toInt =
    if c.toNat % 2 = 1 then -1 - ((c.toNat / 2 : ℕ) : Int) else ((c.toNat / 2 : ℕ) : Int) := by
  have hc := c.isLt
  have h1 : c &&& 1 ≠ 0 ↔ c.toNat % 2 = 1 := by
    have h := BitFlags.and_shl_one_ne_zero c (i := 0) (by omega)
    rw [show c.getLsbD 0 = decide (c.toNat % 2 = 1) by simp [BitVec.getLsbD, Nat.testBit_zero],
      decide_eq_true_iff] at h
    exact h
  have hs : (c >>> 1).toNat = c.toNat / 2 := by
    rw [toNat_ushiftRight, Nat.shiftRight_eq_div_pow]
  rw [unfoldSign]
  by_cases h : c.toNat % 2 = 1
  · rw [if_pos (h1.2 h), if_pos h, toInt_eq_toNat_cond, toNat_sub, hs, show (-1#64).toNat = 2 ^ 64 - 1 from rfl]
    split <;> omega
  · rw [if_neg (mt h1.1 h), if_neg h, toInt_eq_toNat_cond, hs]
    split <;> omega

theorem unfoldSign_foldSign : unfoldSign (foldSign c) = c := by
  have h := toNat_foldSign c
  apply eq_of_toInt_eq
  rw [toInt_unfoldSign]
  split at h <;> split <;> omega

theorem unfoldSign_injective : Function.Injective unfoldSign := by
  intro c d h
  have e := congrArg BitVec.toInt h
  rw [toInt_unfoldSign, toInt_unfoldSign] at e
  apply eq_of_toNat_eq
  split at e <;> split at e <;> omega

/-! ## `ULEB128` -/

/-- What the loop of `MSG_ReadULEB128` computes on the groups of `v`, from the accumulator `r` and
the shift `o`. -/
def uleb128Decode (v : ℕ) (r : BitVec 64) (o : ℕ) : Option (BitVec 64) :=
  if v < 128 then (intShl (BitVec.ofNat 32 v) o).map fun g => r ||| g.signExtend 64
  else (intShl (BitVec.ofNat 32 (v % 128)) o).bind fun g =>
    uleb128Decode (v / 128) (r ||| g.signExtend 64) (o + 7)

variable {r : BitVec 64} {ys : List QByte} {st : MsgState} {b n o v : ℕ}

theorem low7_of_group (hv : v < 128) (hn : n = v ∨ n = v + 128) :
    ((BitVec.ofNat 8 n &&& 0x7f : QByte).setWidth 32) = BitVec.ofNat 32 v := by
  apply eq_of_toNat_eq
  rw [toNat_setWidth, toNat_and, toNat_ofNat, toNat_ofNat,
    show (0x7f : QByte).toNat = 2 ^ 7 - 1 from rfl, Nat.and_two_pow_sub_one_eq_mod]
  omega

theorem and_80_eq_zero_iff (hn : n < 256) : BitVec.ofNat 8 n &&& 0x80 = 0 ↔ n < 128 := by
  have h := BitFlags.and_shl_one_ne_zero (BitVec.ofNat 8 n) (i := 7) (by omega)
  rw [BitFlags.getLsbD_ofNat (by omega), decide_eq_true_iff] at h
  rw [← not_iff_not]
  exact h.trans (by omega)

/-- One round of the loop on a byte that is there. -/
theorem msgReadULEB128Loop_succ {b : QByte} (n : ℕ) (r : BitVec 64) (o : ℕ) (h : st.Ahead (b :: ys)) :
    (msgReadULEB128Loop (n + 1) r o).run st =
      (intShl ((b &&& 0x7f).setWidth 32) o).bind fun g =>
        if b &&& 0x80 = 0 then some (r ||| g.signExtend 64, st.skip 1)
        else (msgReadULEB128Loop n (r ||| g.signExtend 64) (o + 7)).run (st.skip 1) := by
  have hb : msgReadByte.run st = some ((b.toNat : Int), st.skip 1) := msgReadByte_takes b st ys h
  simp [msgReadULEB128Loop, h.good, hb]
  cases intShl (BitVec.setWidth 32 b &&& 127#32) o with
  | none => rfl
  | some g =>
    simp only [bind_some]
    split <;> rfl

theorem msgReadULEB128Loop_run (hn : (uleb128Bytes v).length ≤ n) (r : BitVec 64)
    (o : ℕ) (h : st.Ahead (uleb128Bytes v ++ ys)) :
    (msgReadULEB128Loop n r o).run st =
      (uleb128Decode v r o).map fun a => (a, st.skip (uleb128Bytes v).length) := by
  induction v using uleb128Bytes.induct generalizing n r o st with
  | case1 v hv =>
    rw [uleb128Bytes, if_pos hv] at h hn ⊢
    obtain ⟨n, rfl⟩ : ∃ m, n = m + 1 := ⟨n - 1, by simp at hn; omega⟩
    rw [msgReadULEB128Loop_succ n r o h, uleb128Decode, if_pos hv, low7_of_group hv (.inl rfl)]
    simp only [if_pos ((and_80_eq_zero_iff (by omega)).2 hv)]
    cases intShl (BitVec.ofNat 32 v) o <;> rfl
  | case2 v hv ih =>
    rw [uleb128Bytes, if_neg hv] at h hn ⊢
    obtain ⟨n, rfl⟩ : ∃ m, n = m + 1 := ⟨n - 1, by simp at hn; omega⟩
    rw [msgReadULEB128Loop_succ n r o h, uleb128Decode, if_neg hv, low7_of_group (mod_lt v (by omega)) (.inr rfl)]
    simp only [if_neg (mt (and_80_eq_zero_iff (by omega)).1 (by omega : ¬v % 128 + 128 < 128))]
    cases intShl (BitVec.ofNat 32 (v % 128)) o with
    | none => rfl
    | some g =>
      have h' : (st.skip 1).Ahead (uleb128Bytes (v / 128) ++ ys) :=
        (show st.Ahead ([_] ++ (uleb128Bytes (v / 128) ++ ys)) from h).skip
      rw [bind_some, ih (by simpa using hn) _ _ h', length_cons, ← MsgState.skip_add,
        Nat.add_comm 1]
      rfl

/-- The whole read. -/
theorem msgReadULEB128_run (v : ℕ) (h : st.Ahead (uleb128Bytes v ++ ys)) : msgReadULEB128.run st =
      (uleb128Decode v 0 0).map fun a => (a, st.skip (uleb128Bytes v).length) := by
  have hlen := (Ahead.readcount h).1
  exact msgReadULEB128Loop_run (by omega) 0 0 h

theorem takes_msgReadULEB128_iff (v : ℕ) (a : BitVec 64) :
    source.Takes msgReadULEB128 (uleb128Bytes v) a ↔ uleb128Decode v 0 0 = some a := by
  constructor
  · intro h
    obtain ⟨st, hst⟩ := exists_ahead (uleb128Bytes v ++ [])
    have e := h st [] hst
    rw [msgReadULEB128_run v hst] at e
    cases hd : uleb128Decode v 0 0 <;> simp_all
  · intro h st ys hst
    rw [msgReadULEB128_run v hst, h]
    rfl

/-! ### Which numbers come back -/

theorem intShl_group {g : ℕ} (ho : o < 32) (h : g * 2 ^ o < 2 ^ 31) :
    ∃ x, intShl (BitVec.ofNat 32 g) o = some x ∧ (x.signExtend 64).toNat = g * 2 ^ o := by
  have hg : g < 2 ^ 31 := lt_of_le_of_lt (Nat.le_mul_of_pos_right g (two_pow_pos o)) h
  have hx : (BitVec.ofNat 32 g <<< o).toNat = g * 2 ^ o := by
    rw [toNat_shiftLeft, toNat_ofNat, Nat.shiftLeft_eq,
      mod_eq_of_lt (show g < 2 ^ 32 by omega), mod_eq_of_lt (by omega)]
  refine ⟨BitVec.ofNat 32 g <<< o, if_pos ho, ?_⟩
  have hi : (BitVec.ofNat 32 g <<< o).toInt = (g * 2 ^ o : ℕ) := by
    rw [toInt_eq_toNat_cond, hx, if_pos (by omega)]
  rw [BitVec.signExtend, hi, ofInt_natCast, toNat_ofNat, mod_eq_of_lt (by omega)]

/-- A group that stays below the sign bit is added to the accumulator. -/
theorem toNat_or_group {x : BitVec 64} {g : ℕ} (hr : r.toNat < 2 ^ o)
    (hx : x.toNat = g * 2 ^ o) : (r ||| x).toNat = r.toNat + g * 2 ^ o := by
  rw [toNat_or, hx, Nat.or_comm, Nat.mul_comm, ← Nat.two_pow_add_eq_or_of_lt hr]
  omega

/-- One group of the decoder, below the sign bit. -/
theorem uleb128Decode_step (hv : 128 ≤ v) (ho : o + 7 < 32) (hr : r.toNat < 2 ^ o) :
    ∃ r' : BitVec 64, uleb128Decode v r o = uleb128Decode (v / 128) r' (o + 7) ∧
      r'.toNat = r.toNat + v % 128 * 2 ^ o := by
  have hg : v % 128 * 2 ^ o < 2 ^ 31 := by
    have h7 : v % 128 * 2 ^ o < 2 ^ 7 * 2 ^ o :=
      Nat.mul_lt_mul_of_pos_right (mod_lt v (by omega)) (two_pow_pos o)
    rw [← pow_add] at h7
    exact lt_of_lt_of_le h7 (pow_le_pow_right (by omega) (by omega))
  obtain ⟨x, hx, hxv⟩ := intShl_group (by omega) hg
  refine ⟨r ||| x.signExtend 64, ?_, toNat_or_group hr hxv⟩
  rw [uleb128Decode, if_neg (by omega), hx, bind_some]

theorem uleb128Decode_of_lt (ho : o < 32) (hr : r.toNat < 2 ^ o) (hv : v * 2 ^ o < 2 ^ 31) :
    ∃ a, uleb128Decode v r o = some a ∧ a.toNat = r.toNat + v * 2 ^ o := by
  induction v using Nat.strongRecOn generalizing r o with
  | ind v ih =>
  by_cases h : v < 128
  · obtain ⟨x, hx, hxv⟩ := intShl_group ho hv
    refine ⟨r ||| x.signExtend 64, ?_, toNat_or_group hr hxv⟩
    rw [uleb128Decode, if_pos h, hx, map_some]
  · -- the value has a bit past this group, so the next shift is in range
    have ho' : o + 7 < 32 := by
      by_contra hc
      have h24 : 2 ^ 24 ≤ 2 ^ (o - 1) := pow_le_pow_right (by omega) (by omega)
      have h25 : 2 ^ o = 2 ^ (o - 1) * 2 := by rw [← Nat.pow_succ]; congr 1; omega
      have : 128 * 2 ^ o ≤ v * 2 ^ o := Nat.mul_le_mul_right _ (by omega)
      omega
    obtain ⟨r', hd, hr'⟩ := uleb128Decode_step (v := v) (by omega) ho' hr
    have hsplit : v * 2 ^ o = v % 128 * 2 ^ o + v / 128 * 2 ^ (o + 7) := by
      rw [pow_add]
      nth_rewrite 1 [← Nat.mod_add_div v 128]
      ring
    have hlow : v % 128 * 2 ^ o + 2 ^ o ≤ 2 ^ (o + 7) := by
      rw [pow_add, Nat.mul_comm (2 ^ o), ← Nat.succ_mul]
      exact Nat.mul_le_mul_right _ (by have := mod_lt v (by omega : 0 < 128); omega)
    obtain ⟨a, ha, hav⟩ := ih (v / 128) (by omega) (r := r') ho' (by omega) (by omega)
    exact ⟨a, by rw [hd, ha], by omega⟩

/-- The first four groups go into the accumulator whatever follows. -/
theorem uleb128Decode_four (hv : 2 ^ 28 ≤ v) :
    ∃ r : BitVec 64, uleb128Decode v 0 0 = uleb128Decode (v / 2 ^ 28) r 28 ∧
      r.toNat = v % 2 ^ 28 := by
  obtain ⟨r₁, h₁, e₁⟩ := uleb128Decode_step (v := v) (r := 0) (o := 0) (by omega) (by omega)
    (by simp)
  obtain ⟨r₂, h₂, e₂⟩ := uleb128Decode_step (v := v / 128) (r := r₁) (o := 7) (by omega) (by omega)
    (by simp at e₁; omega)
  obtain ⟨r₃, h₃, e₃⟩ := uleb128Decode_step (v := v / 128 / 128) (r := r₂) (o := 14) (by omega)
    (by omega) (by simp at e₁; omega)
  obtain ⟨r₄, h₄, e₄⟩ := uleb128Decode_step (v := v / 128 / 128 / 128) (r := r₃) (o := 21) (by omega)
    (by omega) (by simp at e₁; omega)
  refine ⟨r₄, ?_, by simp at e₁; omega⟩
  rw [h₁, h₂, h₃, h₄]
  congr 1
  omega

/-- From the sixth group on the shift is undefined. -/
theorem uleb128Decode_of_ge (v : ℕ) (r : BitVec 64) (ho : 32 ≤ o) :
    uleb128Decode v r o = none := by
  have e : ∀ x, intShl x o = none := fun x => if_neg (by omega)
  rw [uleb128Decode, e, e]
  split <;> rfl

/-- The high bits of the accumulator after a fifth group `v` are all the group's bit 3, which the
shift moves to the sign of the `int`. -/
theorem getLsbD_fifth_group (hr : r.toNat < 2 ^ 28) (v : ℕ) {i : ℕ} (hi : 31 ≤ i) (hi' : i < 64) :
    (r ||| (BitVec.ofNat 32 v <<< 28).signExtend 64).getLsbD i = decide (v / 2 ^ 3 % 2 = 1) := by
  have h0 : r.getLsbD i = false :=
    Nat.testBit_lt_two_pow (lt_of_lt_of_le hr (pow_le_pow_right (by omega) (by omega)))
  have h31 : (BitVec.ofNat 32 v <<< 28).getLsbD 31 = decide (v / 2 ^ 3 % 2 = 1) := by
    rw [getLsbD_shiftLeft]
    simpa using BitFlags.getLsbD_ofNat (w := 32) (n := v) (i := 3) (by omega)
  rw [getLsbD_or, h0, Bool.false_or, getLsbD_signExtend, decide_eq_true hi', Bool.true_and]
  split
  · rw [show i = 31 by omega, h31]
  · rw [msb_eq_getLsbD_last, h31]

/-- The fifth group goes through the sign bit of the `int`: from `2^31` on the number is lost. -/
theorem uleb128Decode_ne {c : BitVec 64} (hc : 2 ^ 31 ≤ c.toNat) :
    uleb128Decode c.toNat 0 0 ≠ some c := by
  obtain ⟨r, hd, hr⟩ := uleb128Decode_four (v := c.toNat) (by omega)
  rw [hd, uleb128Decode]
  by_cases h : c.toNat / 2 ^ 28 < 128
  · rw [if_pos h, intShl, if_pos (by omega)]
    intro e
    have ec : r ||| (BitVec.ofNat 32 (c.toNat / 2 ^ 28) <<< 28).signExtend 64 = c := some.inj e
    have hbit : ∀ i, 31 ≤ i → i < 64 →
        (c.toNat / 2 ^ i % 2 = 1 ↔ c.toNat / 2 ^ 28 / 2 ^ 3 % 2 = 1) := fun i hi hi' => by
      have e' := getLsbD_fifth_group (r := r) (by omega) (c.toNat / 2 ^ 28) hi hi'
      rw [ec, BitVec.getLsbD, Nat.testBit_eq_decide_div_mod_eq] at e'
      simpa only [decide_eq_decide] using e'
    -- bit 35 of `c` is clear, so bits 31 to 34 are
    have h31 := hbit 31 (by omega) (by omega)
    have h32 := hbit 32 (by omega) (by omega)
    have h33 := hbit 33 (by omega) (by omega)
    have h34 := hbit 34 (by omega) (by omega)
    have h35 := hbit 35 (by omega) (by omega)
    omega
  · rw [if_neg h, intShl, if_pos (by omega), bind_some, uleb128Decode_of_ge _ _ (by omega)]
    simp

/-- **`ULEB128` gives back exactly the numbers below `2^31`.** -/
theorem msgULEB128_roundTrip_iff :
    RoundTrip (msgWriteULEB128 c) msgReadULEB128 c ↔ c.toNat < 2 ^ 31 := by
  rw [roundTrip_iff (msgWriteULEB128_emits c), takes_msgReadULEB128_iff]
  constructor
  · intro h
    by_contra hc
    exact uleb128Decode_ne (by omega) h
  · intro h
    obtain ⟨a, ha, hav⟩ := uleb128Decode_of_lt (v := c.toNat) (r := 0) (o := 0) (by omega) (by simp)
      (by omega)
    rw [ha, eq_of_toNat_eq (x := a) (y := c) (by simpa using hav)]

/-- A number that is stored in fewer bits than an `int`. -/
theorem uleb128_roundTrip_of_lt {w : ℕ} (hw : w < 32) (x : BitVec w) :
    RoundTrip (msgWriteULEB128 (x.setWidth 64)) (BitVec.setWidth w <$> msgReadULEB128) x := by
  have hx : (x.setWidth 64).toNat < 2 ^ 31 := by
    rw [toNat_setWidth_of_le (by omega)]
    exact x.isLt.trans_le (pow_le_pow_right (by omega) (by omega))
  have e := ((msgULEB128_roundTrip_iff (x.setWidth 64)).2 hx).map (BitVec.setWidth w)
  rwa [setWidth_setWidth_of_le _ (by omega), setWidth_eq] at e

/-- A number of 32 bits: what the fifth group spills into the sign is cut off. -/
theorem uleb128_roundTrip_32 (x : BitVec 32) :
    RoundTrip (msgWriteULEB128 (x.setWidth 64)) (BitVec.setWidth 32 <$> msgReadULEB128) x := by
  have hv : (x.setWidth 64).toNat = x.toNat := toNat_setWidth_of_le (by omega)
  rcases lt_or_ge x.toNat (2 ^ 28) with h | h
  · have e := ((msgULEB128_roundTrip_iff (x.setWidth 64)).2 (by omega)).map (BitVec.setWidth 32)
    rwa [setWidth_setWidth_of_le _ (by omega), setWidth_eq] at e
  · obtain ⟨r, hd, hr⟩ := uleb128Decode_four h
    have hx := x.isLt
    have hg : uleb128Decode (x.toNat / 2 ^ 28) r 28 =
        some (r ||| (BitVec.ofNat 32 (x.toNat / 2 ^ 28) <<< 28).signExtend 64) := by
      rw [uleb128Decode, if_pos (by omega), intShl, if_pos (by omega), map_some]
    have htakes : source.Takes msgReadULEB128 (uleb128Bytes (x.setWidth 64).toNat) _ :=
      (takes_msgReadULEB128_iff _ _).2 (by rw [hv]; exact hd.trans hg)
    refine ⟨_, msgWriteULEB128_emits _, ?_⟩
    have e := htakes.map (BitVec.setWidth 32)
    have hlow : (r ||| (BitVec.ofNat 32 (x.toNat / 2 ^ 28) <<< 28).signExtend 64).setWidth 32 = x := by
      have hset : ((BitVec.ofNat 32 (x.toNat / 2 ^ 28) <<< 28).signExtend 64).setWidth 32 =
          BitVec.ofNat 32 (x.toNat / 2 ^ 28) <<< 28 := by
        ext i hi
        rw [getElem_setWidth, getLsbD_signExtend, decide_eq_true (by omega : i < 64),
          if_pos hi, Bool.true_and, getLsbD_eq_getElem hi]
      apply eq_of_toNat_eq
      rw [setWidth_or, hset, toNat_or, toNat_setWidth, hr, toNat_shiftLeft, toNat_ofNat, Nat.shiftLeft_eq, Nat.or_comm]
      have e₁ : x.toNat / 2 ^ 28 % 2 ^ 32 * 2 ^ 28 % 2 ^ 32 = 2 ^ 28 * (x.toNat / 2 ^ 28) := by omega
      have e₂ : x.toNat % 2 ^ 28 % 2 ^ 32 = x.toNat % 2 ^ 28 := by omega
      rw [e₁, e₂, ← Nat.two_pow_add_eq_or_of_lt (by omega)]
      omega
    rwa [hlow] at e

/-- **The signed form gives back exactly the numbers from `-2^30` to `2^30 - 1`.** -/
theorem msgSignedQEX_roundTrip_iff :
    RoundTrip (msgWriteSignedQEX c) msgReadSignedQEX c ↔ -2 ^ 30 ≤ c.toInt ∧ c.toInt < 2 ^ 30 := by
  have hrange : -2 ^ 30 ≤ c.toInt ∧ c.toInt < 2 ^ 30 ↔ (foldSign c).toNat < 2 ^ 31 := by
    have h := toNat_foldSign c
    split at h <;> omega
  have hread : source.Takes (unfoldSign <$> msgReadULEB128) (uleb128Bytes (foldSign c).toNat)
      (unfoldSign (foldSign c)) ↔
      source.Takes msgReadULEB128 (uleb128Bytes (foldSign c).toNat) (foldSign c) :=
    Source.Takes.map_iff unfoldSign_injective
  rw [unfoldSign_foldSign] at hread
  rw [hrange, ← msgULEB128_roundTrip_iff, msgWriteSignedQEX_eq, msgReadSignedQEX, bind_pure_comp,
    roundTrip_iff (msgWriteULEB128_emits _), roundTrip_iff (msgWriteULEB128_emits _)]
  exact hread

/-- **The `ULEB128` codecs.** What comes back is the numbers below `2^31`, and in the signed form
those from `-2^30` to `2^30 - 1`. -/
theorem uleb128_roundTrip_iff (c : BitVec 64) :
    (RoundTrip (msgWriteULEB128 c) msgReadULEB128 c ↔ c.toNat < 2 ^ 31) ∧
      (RoundTrip (msgWriteSignedQEX c) msgReadSignedQEX c ↔
        -2 ^ 30 ≤ c.toInt ∧ c.toInt < 2 ^ 30) :=
  ⟨msgULEB128_roundTrip_iff c, msgSignedQEX_roundTrip_iff c⟩

/-- `2^31` comes back with its high half filled. -/
theorem uleb128_not_roundTrip :
    source.Takes msgReadULEB128 (uleb128Bytes 0x80000000) 0xffffffff80000000 ∧
      ¬RoundTrip (msgWriteULEB128 0x80000000) msgReadULEB128 0x80000000 := by
  have h : uleb128Decode 0x80000000 0 0 = some 0xffffffff80000000 := by
    simp [uleb128Decode, intShl]
  exact ⟨(takes_msgReadULEB128_iff _ _).2 h, fun hr =>
    absurd ((msgULEB128_roundTrip_iff 0x80000000).1 hr) (by decide)⟩

/-! ## Length-prefixed integers -/

/-- The counting loop from `b` extra bytes on stops at the first class that holds `c`. -/
theorem uInt64ExtraLoop_spec (hb : b + n = 8) {l : BitVec 64} (hl : n ≠ 0 → l.toNat = 2 ^ (7 * (b + 1))) :
    b ≤ uInt64ExtraLoop c n b l ∧ uInt64ExtraLoop c n b l ≤ 8 ∧
      ∀ k, b ≤ k → k < 8 → (uInt64ExtraLoop c n b l ≤ k ↔ c.toNat < 2 ^ (7 * (k + 1))) := by
  induction n generalizing b l with
  | zero => exact ⟨le_rfl, by rw [uInt64ExtraLoop]; omega, fun k hk hk' => by omega⟩
  | succ n ih =>
    have hl' := hl (by omega)
    have hpow : 2 ^ (7 * (b + 1)) ≤ 2 ^ 56 := pow_le_pow_right (by omega) (by omega)
    have hpos : 0 < 2 ^ (7 * (b + 1)) := two_pow_pos _
    have hlt : l - 1 < c ↔ 2 ^ (7 * (b + 1)) ≤ c.toNat := by
      rw [lt_def, toNat_sub, hl', show (1 : BitVec 64).toNat = 1 from rfl]
      omega
    rw [uInt64ExtraLoop]
    by_cases h : l - 1 < c
    · rw [if_pos h]
      have hnext : n ≠ 0 → (l <<< 7).toNat = 2 ^ (7 * (b + 1 + 1)) := fun hn => by
        have hpow' : 2 ^ (7 * (b + 1 + 1)) ≤ 2 ^ 56 := pow_le_pow_right (by omega) (by omega)
        rw [toNat_shiftLeft, hl', Nat.shiftLeft_eq, ← pow_add,
          show 7 * (b + 1) + 7 = 7 * (b + 1 + 1) by ring, mod_eq_of_lt (by omega)]
      obtain ⟨h₁, h₂, h₃⟩ := ih (by omega) hnext
      refine ⟨by omega, h₂, fun k hk hk' => ?_⟩
      rcases Nat.eq_or_lt_of_le hk with rfl | hk
      · have := hlt.1 h
        omega
      · exact h₃ k hk hk'
    · rw [if_neg h]
      refine ⟨le_rfl, by omega, fun k hk _ => ⟨fun _ => ?_, fun _ => hk⟩⟩
      have hmono : 2 ^ (7 * (b + 1)) ≤ 2 ^ (7 * (k + 1)) :=
        pow_le_pow_right (by omega) (by omega)
      have := mt hlt.2 h
      omega

theorem uInt64Extra_le : uInt64Extra c ≤ 8 :=
  (uInt64ExtraLoop_spec c rfl fun _ => rfl).2.1

/-- `k` extra bytes do exactly for the numbers below `2^(7(k+1))`. -/
theorem uInt64Extra_le_iff {k : ℕ} (hk : k < 8) :
    uInt64Extra c ≤ k ↔ c.toNat < 2 ^ (7 * (k + 1)) :=
  (uInt64ExtraLoop_spec c rfl fun _ => rfl).2.2 k (Nat.zero_le k) hk

theorem length_uInt64Tail (b : ℕ) : (uInt64Tail c b).length = b := by
  induction b with
  | zero => rfl
  | succ b ih => rw [uInt64Tail, length_cons, ih]

theorem length_uInt64Bytes : (uInt64Bytes c).length = uInt64Extra c + 1 := by
  rw [uInt64Bytes, length_cons, length_uInt64Tail]

/-! ### The first byte -/

/-- The first byte is `b` ones, a zero and the high bits of the number; nine-byte numbers have
eight ones and no more. -/
theorem toNat_uInt64Head (hb : b ≤ 8) (hc : b < 8 → c.toNat < 2 ^ (7 * (b + 1))) :
    (uInt64Head c b).toNat = 2 ^ 8 - 2 ^ (8 - b) + c.toNat / 2 ^ (8 * b) := by
  have hv : c.toNat / 2 ^ (8 * b) < 2 ^ (8 - b) := by
    rcases Nat.eq_or_lt_of_le hb with rfl | hb
    · have := c.isLt
      omega
    · refine (Nat.div_lt_iff_lt_mul (two_pow_pos _)).2 ((hc hb).trans_le ?_)
      rw [← pow_add]
      exact pow_le_pow_right (by omega) (by omega)
  have hff : ((0xff : BitVec 64) <<< (8 - b)).toNat = 2 ^ (8 - b) * 0xff := by
    have : 2 ^ (8 - b) ≤ 2 ^ 8 := pow_le_pow_right (by omega) (by omega)
    rw [toNat_shiftLeft, Nat.shiftLeft_eq, show (0xff : BitVec 64).toNat = 0xff from rfl,
      mod_eq_of_lt (by omega), Nat.mul_comm]
  have hsh : (c >>> (b * 8)).toNat = c.toNat / 2 ^ (8 * b) := by
    rw [toNat_ushiftRight, Nat.shiftRight_eq_div_pow, Nat.mul_comm]
  rw [uInt64Head, toNat_setWidth, toNat_or, hff, hsh, ← Nat.two_pow_add_eq_or_of_lt hv]
  have h8 : 2 ^ (8 - b) ≤ 2 ^ 8 := pow_le_pow_right (by omega) (by omega)
  have hpos : 0 < 2 ^ (8 - b) := two_pow_pos _
  rw [show 2 ^ (8 - b) * 0xff + c.toNat / 2 ^ (8 * b) =
      2 ^ 8 * (2 ^ (8 - b) - 1) + (2 ^ 8 - 2 ^ (8 - b) + c.toNat / 2 ^ (8 * b)) by omega,
    Nat.mul_add_mod, mod_eq_of_lt (by omega)]

theorem shl_one_ushr_one (h : n ≠ 0) (hn : n < 8) : 1#8 <<< n >>> 1 = 1#8 <<< (n - 1) := by
  obtain ⟨m, rfl⟩ := Nat.exists_eq_succ_of_ne_zero h
  apply eq_of_toNat_eq
  have hpow : 2 ^ (m + 1) < 2 ^ 8 := Nat.pow_lt_pow_right (by omega) hn
  rw [toNat_ushiftRight, toNat_shiftLeft, toNat_shiftLeft, Nat.shiftLeft_eq,
    Nat.shiftLeft_eq, Nat.shiftRight_eq_div_pow, show (1#8).toNat = 1 from rfl, Nat.one_mul,
    Nat.one_mul, Nat.succ_eq_add_one, Nat.add_sub_cancel, mod_eq_of_lt hpow]
  rw [Nat.pow_succ] at hpow ⊢
  rw [mod_eq_of_lt (by omega)]
  omega

/-- Counting the ones of the first byte: `n` more bits to look at, the next is bit `n - 1`. -/
theorem uInt64CountLoop_spec {k r : ℕ} (hk : k ≤ n) (hr : k < n → r < 2 ^ (n - k - 1)) (hr' : k = n → r = 0)
    {l v : QByte} (hn : n ≤ 8) (hl : n ≠ 0 → l = 1#8 <<< (n - 1)) (hv : v.toNat = 2 ^ n - 2 ^ (n - k) + r) (b : ℕ) :
    ∃ v' : QByte, uInt64CountLoop n l v b = (v', b + k) ∧ v'.toNat = r := by
  induction n generalizing k l v b with
  | zero =>
    obtain rfl : k = 0 := by omega
    exact ⟨v, rfl, by simpa using hv⟩
  | succ n ih =>
    have hl' := hl (by omega)
    rw [Nat.add_sub_cancel] at hl'
    have hbit : v &&& l ≠ 0 ↔ v.toNat / 2 ^ n % 2 = 1 := by
      rw [hl']
      refine (BitFlags.and_shl_one_ne_zero v (by omega)).trans ?_
      rw [BitVec.getLsbD, Nat.testBit_eq_decide_div_mod_eq, decide_eq_true_iff]
    have hpos : 0 < 2 ^ n := two_pow_pos n
    have hsucc : 2 ^ (n + 1) = 2 * 2 ^ n := by rw [Nat.pow_succ]; ring
    rw [uInt64CountLoop]
    cases k with
    | zero =>
      have hlt : v.toNat < 2 ^ n := by have := hr (by omega); simp at this hv; omega
      rw [if_neg (mt hbit.1 (by rw [Nat.div_eq_of_lt hlt]; omega))]
      exact ⟨v, rfl, by simpa using hv⟩
    | succ k =>
      have hle : 2 ^ (n - k) ≤ 2 ^ n := pow_le_pow_right (by omega) (by omega)
      have hrlt : r < 2 ^ (n - k) := by
        rcases Nat.eq_or_lt_of_le hk with h | h
        · rw [hr' h]
          exact two_pow_pos _
        · exact (hr h).trans_le (pow_le_pow_right (by omega) (by omega))
      rw [show n + 1 - (k + 1) = n - k by omega] at hr hv
      have hdiv : v.toNat / 2 ^ n = 1 := by
        rw [Nat.div_eq_iff hpos]
        omega
      have hsub : (v - l).toNat = 2 ^ n - 2 ^ (n - k) + r := by
        have hln : l.toNat = 2 ^ n := by
          rw [hl', toNat_shiftLeft, Nat.shiftLeft_eq, show (1#8).toNat = 1 from rfl,
            Nat.one_mul, mod_eq_of_lt (Nat.pow_lt_pow_right (by omega) (by omega))]
        have := v.isLt
        rw [toNat_sub, hln]
        omega
      rw [if_pos (hbit.2 (by rw [hdiv])), show b + (k + 1) = b + 1 + k by omega]
      refine ih (by omega) (fun h => hr (by omega)) (fun h => hr' (by omega)) (by omega)
        (fun h => ?_) hsub (b + 1)
      rw [hl', shl_one_ushr_one h (by omega)]

/-- The first byte read back: the class and the high bits. -/
theorem uInt64CountLoop_head :
    ∃ v : QByte, uInt64CountLoop 8 0x80 (uInt64Head c (uInt64Extra c)) 0 = (v, uInt64Extra c) ∧
      v.toNat = c.toNat / 2 ^ (8 * uInt64Extra c) := by
  have hb := uInt64Extra_le c
  have hc : uInt64Extra c < 8 → c.toNat < 2 ^ (7 * (uInt64Extra c + 1)) := fun h =>
    (uInt64Extra_le_iff c h).1 le_rfl
  generalize uInt64Extra c = b at hb hc ⊢
  have h := uInt64CountLoop_spec (n := 8) (k := b) (r := c.toNat / 2 ^ (8 * b)) hb
    (fun h => (Nat.div_lt_iff_lt_mul (two_pow_pos _)).2 ((hc h).trans_le ?_)) (fun h => ?_)
    le_rfl (fun _ => rfl) (toNat_uInt64Head c hb hc) 0
  · rwa [Nat.zero_add] at h
  · rw [← pow_add]
    exact pow_le_pow_right (by omega) (by omega)
  · rw [h, Nat.div_eq_of_lt c.isLt]

/-! ### The other bytes -/

theorem uInt64ReadTail_takes (hb : b ≤ 8) (hr : r.toNat = c.toNat / 2 ^ (8 * b) * 2 ^ (8 * b)) :
    source.Takes (uInt64ReadTail b r) (uInt64Tail c b) c := by
  induction b generalizing r with
  | zero =>
    rw [show r = c from eq_of_toNat_eq (by simpa using hr)]
    exact Source.Takes.pure c
  | succ b ih =>
    refine (msgReadByte_takes _).bind (ih (by omega) ?_)
    have hpow : 2 ^ (8 * (b + 1)) = 2 ^ (8 * b) * 256 := by
      rw [show 8 * (b + 1) = 8 * b + 8 by ring, pow_add]
    have hle : 2 ^ (8 * b) * 256 ≤ 2 ^ 64 := by
      rw [← hpow]
      exact pow_le_pow_right (by omega) (by omega)
    have hbyte : ((c >>> (b * 8)).setWidth 8 : QByte).toNat = c.toNat / 2 ^ (8 * b) % 256 := by
      rw [toNat_setWidth, toNat_ushiftRight, Nat.shiftRight_eq_div_pow, Nat.mul_comm]
    rw [hpow, ← Nat.div_div_eq_div_mul] at hr
    have hlt : c.toNat / 2 ^ (8 * b) % 256 * 2 ^ (8 * b) < 2 ^ (8 * b) * 256 := by
      rw [Nat.mul_comm (2 ^ (8 * b))]
      exact Nat.mul_lt_mul_of_pos_right (mod_lt _ (by omega)) (two_pow_pos _)
    have hsh : (BitVec.ofInt 64 (((c >>> (b * 8)).setWidth 8 : QByte).toNat : Int) <<<
        (b * 8)).toNat = c.toNat / 2 ^ (8 * b) % 256 * 2 ^ (8 * b) := by
      rw [ofInt_natCast, toNat_shiftLeft, toNat_ofNat, hbyte, Nat.shiftLeft_eq,
        Nat.mul_comm b 8, mod_eq_of_lt (a := _ % 256) (by omega), mod_eq_of_lt (by omega)]
    -- the byte falls below the bits that are already there
    have hor : (r ||| BitVec.ofInt 64 (((c >>> (b * 8)).setWidth 8 : QByte).toNat : Int) <<<
        (b * 8)).toNat = 2 ^ (8 * (b + 1)) * (c.toNat / 2 ^ (8 * b) / 256) +
          c.toNat / 2 ^ (8 * b) % 256 * 2 ^ (8 * b) := by
      rw [toNat_or, hsh, hr, Nat.two_pow_add_eq_or_of_lt (by omega), hpow]
      congr 1
      ring
    rw [hor, hpow, Nat.mul_assoc, Nat.mul_comm, ← Nat.add_mul, Nat.div_add_mod]

/-- **`MSG_ReadUInt64` gives back every number.** -/
theorem msgUInt64_roundTrip : RoundTrip (msgWriteUInt64 c) msgReadUInt64 c := by
  refine ⟨_, msgWriteUInt64_emits c, ?_⟩
  obtain ⟨v, hv, hvn⟩ := uInt64CountLoop_head c
  have hb := uInt64Extra_le c
  rw [uInt64Bytes, ← singleton_append]
  refine (msgReadByte_takes _).bind ?_
  rw [ofInt_toNat]
  simp only [hv]
  refine uInt64ReadTail_takes c hb ?_
  have hle : c.toNat / 2 ^ (8 * uInt64Extra c) * 2 ^ (8 * uInt64Extra c) ≤ c.toNat :=
    Nat.div_mul_le_self _ _
  have := c.isLt
  rw [toNat_shiftLeft, toNat_setWidth, hvn, Nat.shiftLeft_eq, Nat.mul_comm _ 8,
    mod_eq_of_lt (lt_of_le_of_lt (Nat.div_le_self _ _) this), mod_eq_of_lt (by omega)]

theorem msgInt64_roundTrip : RoundTrip (msgWriteInt64 c) msgReadInt64 c := by
  obtain ⟨xs, hw, hr⟩ := msgUInt64_roundTrip (foldSign c)
  refine ⟨xs, by rwa [msgWriteInt64_eq], ?_⟩
  have h := hr.map unfoldSign
  rwa [unfoldSign_foldSign] at h

/-- **The length-prefixed codec.** Both readers give back every number; the encoding has the
least number of bytes that gives seven bits to each, the ninth byte having eight, and no encoding
is a prefix of another number's. -/
theorem msgUInt64_codec :
    (∀ c, RoundTrip (msgWriteUInt64 c) msgReadUInt64 c) ∧
    (∀ c xs, sink.Emits (msgWriteUInt64 c) xs () → 1 ≤ xs.length ∧ xs.length ≤ 9 ∧
      ∀ n, 1 ≤ n → n ≤ 8 → (xs.length ≤ n ↔ c.toNat < 2 ^ (7 * n))) ∧
    (∀ c d xs ys, sink.Emits (msgWriteUInt64 c) xs () → sink.Emits (msgWriteUInt64 d) ys () →
      xs <+: ys → c = d) ∧
    ∀ c, RoundTrip (msgWriteInt64 c) msgReadInt64 c := by
  refine ⟨msgUInt64_roundTrip, fun c xs h => ?_, fun c d xs ys h h' hp => ?_, msgInt64_roundTrip⟩
  · have hb := uInt64Extra_le c
    rw [emits_unique h (msgWriteUInt64_emits c), length_uInt64Bytes]
    refine ⟨by omega, by omega, fun n hn hn' => ?_⟩
    have hk := uInt64Extra_le_iff c (k := n - 1) (by omega)
    rw [Nat.sub_add_cancel hn] at hk
    rw [← hk]
    omega
  · exact takes_of_prefix ((roundTrip_iff h).1 (msgUInt64_roundTrip c))
      ((roundTrip_iff h').1 (msgUInt64_roundTrip d)) hp

end FteQuake
