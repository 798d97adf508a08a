import FteQuake.Lib.BitFlags
import FteQuake.Lib.Numerals
import FteQuake.Common.MsgRead
import FteQuake.Common.MsgWrite
import Mathlib.Data.Fin.VecNotation

/-!
# Scalar messages

What each scalar reader returns on the bytes of the writer it belongs to: the value cut to the
width of the message. Numbers in range, bit patterns, entity numbers and strings come back as they
were.
-/

namespace FteQuake

open StreamProgram MsgState Sizebuf
open BitVec (eq_of_toNat_eq ofInt_natCast ofInt_toInt ofNat_toNat toNat_ofInt toNat_ofNat)

/-! ## Decoding -/

variable (c : Int)

theorem decodeShort_shortBytes : decodeShort (shortBytes c) = BitVec.ofInt 16 c := by
  apply eq_of_toNat_eq
  simp only [decodeShort, shortBytes, List.getD_cons_zero, List.getD_cons_succ, toNat_ofNat,
    toNat_ofInt, Nat.shiftLeft_eq, Int.shiftRight_eq_div_pow]
  omega

theorem decodeLong_longBytes : decodeLong (longBytes c) = BitVec.ofInt 32 c := by
  apply eq_of_toNat_eq
  simp only [decodeLong, longBytes, List.getD_cons_zero, List.getD_cons_succ, toNat_ofNat,
    toNat_ofInt, Nat.shiftLeft_eq, Int.shiftRight_eq_div_pow]
  omega

theorem decodeLong_floatBytes (f : BitVec 32) : decodeLong (floatBytes f) = f := by
  apply eq_of_toNat_eq
  have := f.isLt
  simp only [decodeLong, floatBytes, List.getD_cons_zero, List.getD_cons_succ, toNat_ofNat,
    BitVec.toNat_setWidth, BitVec.toNat_ushiftRight, Nat.shiftLeft_eq, Nat.shiftRight_eq_div_pow]
  omega

theorem toInt_ofInt_of_range {w : ℕ} {c : Int} (h : -2 ^ w ≤ c) (h' : c < 2 ^ w) :
    (BitVec.ofInt (w + 1) c).toInt = c := by
  rw [BitVec.toInt_ofInt]
  have e : ((2 ^ (w + 1) : ℕ) : Int) = 2 * 2 ^ w := by push_cast; ring
  apply Int.bmod_eq_of_le <;> omega

/-! ## Readers on the bytes of writers -/

theorem msgReadChar_byteBytes :
    source.Takes msgReadChar (byteBytes c) (BitVec.ofInt 8 c).toInt :=
  msgReadChar_takes _

theorem msgReadByte_byteBytes :
    source.Takes msgReadByte (byteBytes c) (BitVec.ofInt 8 c).toNat :=
  msgReadByte_takes _

theorem msgReadShort_shortBytes :
    source.Takes msgReadShort (shortBytes c) (BitVec.ofInt 16 c).toInt := by
  rw [← decodeShort_shortBytes]
  exact msgReadShort_takes _ _

theorem msgReadLong_longBytes :
    source.Takes msgReadLong (longBytes c) (BitVec.ofInt 32 c).toInt := by
  rw [← decodeLong_longBytes]
  exact msgReadLong_takes _ _ _ _

theorem msgReadFloat_floatBytes (f : BitVec 32) :
    source.Takes msgReadFloat (floatBytes f) f := by
  have h := msgReadFloat_takes (f.setWidth 8) ((f >>> 8).setWidth 8) ((f >>> 16).setWidth 8) ((f >>> 24).setWidth 8)
  rwa [show decodeLong [f.setWidth 8, (f >>> 8).setWidth 8, (f >>> 16).setWidth 8,
    (f >>> 24).setWidth 8] = f from decodeLong_floatBytes f] at h

/-! ## Entity numbers -/

/-- The short that starts a large entity number, widened to `unsigned int`: the high bit of the
short spreads. -/
theorem ofInt_bigEntityShort {hi : ℕ} (h : hi < 2 ^ 15) :
    BitVec.ofInt 32 (BitVec.ofInt 16 ((hi ||| 0x8000 : ℕ) : Int)).toInt =
      BitVec.ofNat 32 (0xffff8000 + hi) := by
  have e : hi ||| 0x8000 = 0x8000 + hi := by
    rw [Nat.or_comm]
    exact (Nat.two_pow_add_eq_or_of_lt (i := 15) h 1).symm
  apply eq_of_toNat_eq
  rw [e, BitVec.toInt_ofInt, toNat_ofInt, toNat_ofNat, Int.bmod_def]
  split <;> omega

theorem and_8000_ne_zero_iff (n : ℕ) :
    BitVec.ofNat 32 n &&& 0x8000 ≠ 0 ↔ n / 2 ^ 15 % 2 = 1 := by
  have h := BitFlags.and_shl_one_ne_zero (BitVec.ofNat 32 n) (i := 15) (by omega)
  rwa [BitFlags.getLsbD_ofNat (by omega), decide_eq_true_iff] at h

theorem msgReadBigEntity_entityBytes {entnum : ℕ} (h : entnum ≤ maxEdicts) :
    source.Takes msgReadBigEntity (entityBytes entnum) (BitVec.ofNat 32 entnum) := by
  have hm : entnum < 2 ^ 22 := by
    have : maxEdicts = 2 ^ 22 - 1 := by decide
    omega
  by_cases hbig : entnum ≥ 0x8000
  · have hhi : entnum >>> 8 < 2 ^ 15 := by
      rw [Nat.shiftRight_eq_div_pow]
      omega
    rw [entityBytes, if_pos hbig]
    refine Source.Takes.bind (msgReadShort_shortBytes _) ?_
    rw [ofInt_bigEntityShort hhi, if_pos ((and_8000_ne_zero_iff _).2 (by omega))]
    rw [← List.append_nil (byteBytes _)]
    refine Source.Takes.bind (msgReadByte_byteBytes _) ?_
    have e : (BitVec.ofNat 32 (0xffff8000 + entnum >>> 8) &&& 0x7fff) <<< 8 |||
        BitVec.ofInt 32 (BitVec.ofInt 8 ((entnum &&& 0xff : ℕ) : Int)).toNat =
        BitVec.ofNat 32 entnum := by
      apply eq_of_toNat_eq
      rw [BitVec.toNat_or, BitVec.toNat_shiftLeft, BitVec.toNat_and, toNat_ofNat,
        show (0x7fff : BitVec 32).toNat = 2 ^ 15 - 1 from rfl, Nat.and_two_pow_sub_one_eq_mod,
        show (0xff : ℕ) = 2 ^ 8 - 1 from rfl, Nat.and_two_pow_sub_one_eq_mod, toNat_ofInt,
        toNat_ofInt, toNat_ofNat, Nat.shiftLeft_eq, Nat.shiftRight_eq_div_pow]
      have e₁ : (0xffff8000 + entnum / 2 ^ 8) % 2 ^ 32 % 2 ^ 15 * 2 ^ 8 % 2 ^ 32 = 2 ^ 8 * (entnum / 2 ^ 8) := by omega
      have e₂ : (((((entnum % 2 ^ 8 : ℕ) : Int) % (2 ^ 8 : ℕ)).toNat : Int) % (2 ^ 32 : ℕ)).toNat =
          entnum % 2 ^ 8 := by omega
      rw [e₁, e₂, ← Nat.two_pow_add_eq_or_of_lt (by omega)]
      omega
    rw [← e]
    exact Source.Takes.pure _
  · have e : BitVec.ofInt 32 (BitVec.ofInt 16 (entnum : Int)).toInt = BitVec.ofNat 32 entnum := by
      rw [toInt_ofInt_of_range (by omega) (by omega), ofInt_natCast]
    rw [entityBytes, if_neg hbig, ← List.append_nil (shortBytes _)]
    refine (msgReadShort_shortBytes _).bind ?_
    rw [e, if_neg (mt (and_8000_ne_zero_iff _).1 (by omega))]
    exact Source.Takes.pure _

/-! ## Strings -/

theorem msgReadStringLoop_takes {n : ℕ} {s : List QByte} (h0 : 0 ∉ s) (hn : s.length < n)
    (acc : List QByte) (hs : acc.length + s.length < 65536) :
    source.Takes (msgReadStringLoop n acc) (s ++ [0]) (acc ++ s) := by
  induction s generalizing n acc with
  | nil =>
    obtain ⟨n, rfl⟩ : ∃ m, n = m + 1 := ⟨n - 1, by omega⟩
    refine (msgReadChar_takes 0).bind ?_
    refine Source.Takes.get_bind fun st ys h => ?_
    rw [if_pos (Or.inr (by decide)), List.append_nil]
    exact Source.Takes.pure _
  | cons b s ih =>
    obtain ⟨n, rfl⟩ : ∃ m, n = m + 1 := ⟨n - 1, by omega⟩
    rw [List.mem_cons, not_or] at h0
    rw [List.length_cons] at hn hs
    refine (msgReadChar_takes b).bind ?_
    refine Source.Takes.get_bind fun st ys h => ?_
    -- the byte is not the terminator, and there is room for it
    have hb : b.toInt ≠ 0 := fun e => h0.1 (BitVec.eq_of_toInt_eq (by rw [e]; rfl))
    rw [if_neg (show ¬(st.msgBadread = true ∨ b.toInt = 0) by simp [Ahead.good h, hb]),
      if_pos (by omega), ofInt_toInt]
    have e := ih h0.2 (show s.length < n by omega) (acc ++ [b]) (by simp; omega)
    rwa [List.append_assoc] at e

theorem msgReadString_bytes {s : List QByte} (h0 : 0 ∉ s) (hs : s.length < 65536) :
    source.Takes msgReadString (s ++ [0]) s := by
  refine Source.Takes.get_bind fun st ys h => ?_
  have hlen : s.length < st.msgReadmsg.cursize + 2 := by
    have := (Ahead.readcount h).1
    rw [List.length_append] at this
    omega
  exact msgReadStringLoop_takes h0 hlen [] (by simpa using hs)

/-! ## Round trips -/

theorem msgChar_roundTrip {c : Int} (h : -128 ≤ c) (h' : c ≤ 127) :
    RoundTrip (msgWriteChar c) msgReadChar c := by
  refine ⟨_, msgWriteChar_emits c, ?_⟩
  have e := msgReadChar_byteBytes c
  rwa [toInt_ofInt_of_range (w := 7) (by omega) (by omega)] at e

theorem msgByte_roundTrip :
    RoundTrip (msgWriteByte c) msgReadByte (BitVec.ofInt 8 c).toNat :=
  ⟨_, msgWriteByte_emits c, msgReadByte_byteBytes c⟩

/-- A byte that is stored in a byte. -/
theorem byte_roundTrip (x : QByte) :
    RoundTrip (msgWriteByte x.toNat) (BitVec.ofInt 8 <$> msgReadByte) x := by
  have e := (msgByte_roundTrip x.toNat).map (BitVec.ofInt 8)
  rwa [ofInt_toNat, ofInt_toNat] at e

theorem msgShort_roundTrip :
    RoundTrip (msgWriteShort c) msgReadShort (BitVec.ofInt 16 c).toInt :=
  ⟨_, msgWriteShort_emits c, msgReadShort_shortBytes c⟩

/-- A short that is stored in a short. -/
theorem short_roundTrip (x : BitVec 16) :
    RoundTrip (msgWriteShort x.toInt) (BitVec.ofInt 16 <$> msgReadShort) x := by
  have e := (msgShort_roundTrip x.toInt).map (BitVec.ofInt 16)
  rwa [ofInt_toInt, ofInt_toInt] at e

/-- A byte of an unsigned value that is stored in any number of bits. -/
theorem lowByte_roundTrip {v : ℕ} (w : ℕ) (x : BitVec v) :
    RoundTrip (msgWriteByte x.toNat) (BitVec.ofInt w <$> msgReadByte)
      ((x.setWidth 8).setWidth w) := by
  have e := (msgByte_roundTrip x.toNat).map (BitVec.ofInt w)
  rwa [ofInt_natCast, ofInt_natCast, ofNat_toNat, ofNat_toNat] at e

/-- A short that is stored in an unsigned short. -/
theorem ushort_roundTrip (x : BitVec 16) :
    RoundTrip (msgWriteShort x.toNat) (BitVec.ofInt 16 <$> msgReadShort) x := by
  have e := (msgShort_roundTrip x.toNat).map (BitVec.ofInt 16)
  rwa [ofInt_toInt, ofInt_natCast, ofNat_toNat, BitVec.setWidth_eq] at e

/-- A byte of a word, as it is read. -/
theorem maskByte_roundTrip {x : BitVec 32} (h : x.toNat < 2 ^ 8) :
    RoundTrip (msgWriteByte x.toNat) (BitVec.ofInt 32 <$> msgReadByte) x := by
  have e := lowByte_roundTrip 32 x
  have e' : (x.setWidth 8).setWidth 32 = x := by
    apply eq_of_toNat_eq
    simp only [BitVec.toNat_setWidth]
    omega
  rwa [e'] at e

theorem toNat_and_255 (x : BitVec 32) : (x &&& 255).toNat = x.toNat % 2 ^ 8 := by
  rw [BitVec.toNat_and]
  exact Nat.and_two_pow_sub_one_eq_mod _ 8

theorem float_roundTrip (f : BitVec 32) : RoundTrip (msgWriteFloat f) msgReadFloat f :=
  ⟨_, msgWriteFloat_emits f, msgReadFloat_floatBytes f⟩

/-! ## Components -/

theorem vec3_eta {α : Type} (v : Fin 3 → α) : ![v 0, v 1, v 2] = v := by
  funext i
  match i with
  | 0 => rfl
  | 1 => rfl
  | 2 => rfl

theorem vec4_eta {α : Type} (v : Fin 4 → α) : ![v 0, v 1, v 2, v 3] = v := by
  funext i
  match i with
  | 0 => rfl
  | 1 => rfl
  | 2 => rfl
  | 3 => rfl

def writeVec {α : Type} (w : α → MsgWriter Unit) (x : Fin 3 → α) : MsgWriter Unit := do
  w (x 0)
  w (x 1)
  w (x 2)

def readVec {α : Type} (r : MsgReader α) : MsgReader (Fin 3 → α) := do
  let x₀ ← r
  let x₁ ← r
  let x₂ ← r
  return ![x₀, x₁, x₂]

theorem writeVec_roundTrip {α β : Type} {w : α → MsgWriter Unit} {r : MsgReader β} {x : Fin 3 → α}
    {y : Fin 3 → β} (h : ∀ i, RoundTrip (w (x i)) r (y i)) :
    RoundTrip (writeVec w x) (readVec r) y := by
  unfold writeVec readVec
  refine (h 0).bind ((h 1).bind ?_)
  have e := (h 2).bind_return fun x₂ => ![y 0, y 1, x₂]
  rwa [vec3_eta] at e

end FteQuake
