import FteQuake.Common.Sizebuf

/-!
# Message writers

The `MSG_Write*` functions of `common.c` that store scalars, strings and variable-length integers.
An `int` argument is an `Int`, of which a writer stores the low bytes; a `float` or `double` is
its bit pattern; `char *` is the list of the bytes before the terminator.

Each writer has a list of bytes (`byteBytes`, `shortBytes`, …, `uInt64Bytes`) and an `_emits`
lemma: with room for the list, the writer appends it and fails not.
-/

namespace FteQuake

open StreamProgram Sizebuf BitVec

/-! ## Scalars -/

def byteBytes (c : Int) : List QByte := [BitVec.ofInt 8 c]

/-- `MSG_WriteChar`. -/
def msgWriteChar (c : Int) : MsgWriter Unit := szWrite [BitVec.ofInt 8 c]

/-- `MSG_WriteByte`. -/
def msgWriteByte (c : Int) : MsgWriter Unit := szWrite [BitVec.ofInt 8 c]

def shortBytes (c : Int) : List QByte := [BitVec.ofInt 8 c, BitVec.ofInt 8 (c >>> (8 : ℕ))]

/-- `MSG_WriteShort`. -/
def msgWriteShort (c : Int) : MsgWriter Unit :=
  szWrite [BitVec.ofInt 8 c, BitVec.ofInt 8 (c >>> (8 : ℕ))]

def longBytes (c : Int) : List QByte :=
  [BitVec.ofInt 8 c, BitVec.ofInt 8 (c >>> (8 : ℕ)), BitVec.ofInt 8 (c >>> (16 : ℕ)),
    BitVec.ofInt 8 (c >>> (24 : ℕ))]

/-- `MSG_WriteLong`. -/
def msgWriteLong (c : Int) : MsgWriter Unit :=
  szWrite
    [BitVec.ofInt 8 c, BitVec.ofInt 8 (c >>> (8 : ℕ)), BitVec.ofInt 8 (c >>> (16 : ℕ)),
    BitVec.ofInt 8 (c >>> (24 : ℕ))]

def floatBytes (f : BitVec 32) : List QByte :=
  [f.setWidth 8, (f >>> 8).setWidth 8, (f >>> 16).setWidth 8, (f >>> 24).setWidth 8]

/-- `MSG_WriteFloat`, on the bit pattern of the float. -/
def msgWriteFloat (f : BitVec 32) : MsgWriter Unit := szWrite (floatBytes f)

def doubleBytes (c : BitVec 64) : List QByte :=
  [c.setWidth 8, (c >>> 8).setWidth 8, (c >>> 16).setWidth 8, (c >>> 24).setWidth 8,
    (c >>> 32).setWidth 8, (c >>> 40).setWidth 8, (c >>> 48).setWidth 8, (c >>> 56).setWidth 8]

/-- `MSG_WriteDouble`, on the bit pattern of the double. -/
def msgWriteDouble (c : BitVec 64) : MsgWriter Unit := szWrite (doubleBytes c)

/-- `MSG_WriteString`, on a string that is not `NULL`: the bytes up to the terminator, and the
terminator. -/
def msgWriteString (s : List QByte) : MsgWriter Unit := szWrite (s ++ [0])

/-- `MAX_EDICTS`. -/
def maxEdicts : ℕ := (1 <<< 22) - 1

def entityBytes (entnum : ℕ) : List QByte :=
  if entnum ≥ 0x8000 then
    shortBytes ((entnum >>> 8 ||| 0x8000 : ℕ) : Int) ++ byteBytes ((entnum &&& 0xff : ℕ) : Int)
  else shortBytes entnum

/-- `MSG_WriteEntity`; `Host_EndGame` on a number past `MAX_EDICTS` is a failure. -/
def msgWriteEntity (entnum : ℕ) : MsgWriter Unit :=
  if entnum > maxEdicts then failure
  else if entnum ≥ 0x8000 then do
    msgWriteShort ((entnum >>> 8 ||| 0x8000 : ℕ) : Int)
    msgWriteByte ((entnum &&& 0xff : ℕ) : Int)
  else msgWriteShort entnum

theorem msgWriteChar_emits (c : Int) : sink.Emits (msgWriteChar c) (byteBytes c) () :=
  szWrite_emits _

theorem msgWriteByte_emits (c : Int) : sink.Emits (msgWriteByte c) (byteBytes c) () :=
  szWrite_emits _

theorem msgWriteShort_emits (c : Int) : sink.Emits (msgWriteShort c) (shortBytes c) () :=
  szWrite_emits _

theorem msgWriteLong_emits (c : Int) : sink.Emits (msgWriteLong c) (longBytes c) () :=
  szWrite_emits _

theorem msgWriteFloat_emits (f : BitVec 32) : sink.Emits (msgWriteFloat f) (floatBytes f) () :=
  szWrite_emits _

variable (c : BitVec 64)

theorem msgWriteDouble_emits : sink.Emits (msgWriteDouble c) (doubleBytes c) () :=
  szWrite_emits _

theorem msgWriteString_emits (s : List QByte) : sink.Emits (msgWriteString s) (s ++ [0]) () :=
  szWrite_emits _

theorem msgWriteEntity_emits {entnum : ℕ} (h : entnum ≤ maxEdicts) :
    sink.Emits (msgWriteEntity entnum) (entityBytes entnum) () := by
  rw [msgWriteEntity, if_neg (by omega), entityBytes]
  exact Sink.Emits.cond (fun _ => (msgWriteShort_emits _).seq (msgWriteByte_emits _))
    fun _ => msgWriteShort_emits _

/-! ## `ULEB128` -/

/-- The base-128 groups of `c`, low first, all but the last with the continuation bit. -/
def uleb128Bytes (c : ℕ) : List QByte :=
  if c < 128 then [BitVec.ofNat 8 c] else BitVec.ofNat 8 (c % 128 + 128) :: uleb128Bytes (c / 128)

/-- `MSG_WriteULEB128`. -/
def msgWriteULEB128 (c : BitVec 64) : MsgWriter Unit :=
  let b : QByte := (c &&& 0x7f).setWidth 8
  let c' := c >>> 7
  if c' = 0 then msgWriteByte b.toNat
  else do
    msgWriteByte (b ||| 0x80).toNat
    msgWriteULEB128 c'
termination_by c.toNat
decreasing_by
  rename_i h
  have h0 : (c >>> 7).toNat ≠ 0 := fun e => h (BitVec.eq_of_toNat_eq e)
  rw [BitVec.toNat_ushiftRight, Nat.shiftRight_eq_div_pow] at h0 ⊢
  omega

theorem ofInt_toNat (b : QByte) : BitVec.ofInt 8 (b.toNat : Int) = b := by
  rw [ofInt_natCast, ofNat_toNat, setWidth_eq]

theorem toNat_low7 :
    ((c &&& 0x7f).setWidth 8 : QByte).toNat = c.toNat % 128 := by
  rw [toNat_setWidth, toNat_and, show (0x7f : BitVec 64).toNat = 2 ^ 7 - 1 from rfl, Nat.and_two_pow_sub_one_eq_mod]
  omega

theorem toNat_or_cont (b : QByte) (h : b.toNat < 128) : (b ||| 0x80).toNat = b.toNat + 128 := by
  rw [toNat_or, show (0x80 : QByte).toNat = 2 ^ 7 * 1 from rfl, Nat.or_comm, ← Nat.two_pow_add_eq_or_of_lt h]
  omega

theorem toNat_shift7 : (c >>> 7).toNat = c.toNat / 128 := by
  rw [toNat_ushiftRight, Nat.shiftRight_eq_div_pow]

theorem msgWriteULEB128_emits :
    sink.Emits (msgWriteULEB128 c) (uleb128Bytes c.toNat) () := by
  induction c using msgWriteULEB128.induct with
  | case1 c c' h =>
    have hc : c.toNat / 128 = 0 := by rw [← toNat_shift7, show c >>> 7 = 0 from h]; rfl
    have hb : (c &&& 0x7f).setWidth 8 = BitVec.ofNat 8 c.toNat :=
      eq_of_toNat_eq (by rw [toNat_low7, toNat_ofNat]; omega)
    rw [msgWriteULEB128, if_pos h, uleb128Bytes, if_pos (by omega), ← hb]
    have e := msgWriteByte_emits (((c &&& 0x7f).setWidth 8 : QByte).toNat)
    rwa [byteBytes, ofInt_toNat] at e
  | case2 c c' h ih =>
    have hc : c.toNat / 128 ≠ 0 := fun e => h (eq_of_toNat_eq (by rw [toNat_shift7, e]; rfl))
    have hb : ((c &&& 0x7f).setWidth 8 : QByte) ||| 0x80 = BitVec.ofNat 8 (c.toNat % 128 + 128) :=
      eq_of_toNat_eq (by
        rw [toNat_or_cont _ (by rw [toNat_low7]; omega), toNat_low7, toNat_ofNat]; omega)
    rw [msgWriteULEB128, if_neg h, uleb128Bytes, if_neg (by omega), ← hb, ← toNat_shift7]
    have e := msgWriteByte_emits (((c &&& 0x7f).setWidth 8 ||| 0x80 : QByte).toNat)
    rw [byteBytes, ofInt_toNat] at e
    exact e.seq ih

/-- `MSG_WriteSignedQEX`. -/
def msgWriteSignedQEX (c : BitVec 64) : MsgWriter Unit :=
  if c.slt 0 then msgWriteULEB128 ((-1#64 - c) <<< 1 ||| 1) else msgWriteULEB128 (c <<< 1)

/-! ## Length-prefixed integers -/

/-- The loop of `MSG_WriteUInt64` that counts the extra bytes; `n` is `8 - b`. -/
def uInt64ExtraLoop (c : BitVec 64) : (n b : ℕ) → (l : BitVec 64) → ℕ
  | 0, b, _ => b
  | n + 1, b, l => if l - 1 < c then uInt64ExtraLoop c n (b + 1) (l <<< 7) else b

/-- The number of extra bytes `MSG_WriteUInt64` needs. -/
def uInt64Extra (c : BitVec 64) : ℕ := uInt64ExtraLoop c 8 0 128

/-- The bytes that follow the first: `while (b --> 0) *buf++ = (c >> (b*8)) & 0xff`. -/
def uInt64Tail (c : BitVec 64) : ℕ → List QByte
  | 0 => []
  | b + 1 => (c >>> (b * 8)).setWidth 8 :: uInt64Tail c b

/-- The first byte: `0xffu << (8-b) | (c >> (b*8))`. The shift by 64, at `b = 8`, gives 0. -/
def uInt64Head (c : BitVec 64) (b : ℕ) : QByte :=
  (((0xff : BitVec 64) <<< (8 - b)) ||| (c >>> (b * 8))).setWidth 8

def uInt64Bytes (c : BitVec 64) : List QByte :=
  uInt64Head c (uInt64Extra c) :: uInt64Tail c (uInt64Extra c)

/-- `MSG_WriteUInt64`. -/
def msgWriteUInt64 (c : BitVec 64) : MsgWriter Unit := szWrite (uInt64Bytes c)

/-- The recoding of `MSG_WriteInt64`: the sign bit moved to the low bit. -/
def foldSign (c : BitVec 64) : BitVec 64 := if c.slt 0 then (-1#64 - c) <<< 1 ||| 1 else c <<< 1

/-- `MSG_WriteInt64`. -/
def msgWriteInt64 (c : BitVec 64) : MsgWriter Unit :=
  if c.slt 0 then msgWriteUInt64 ((-1#64 - c) <<< 1 ||| 1) else msgWriteUInt64 (c <<< 1)

theorem msgWriteUInt64_emits : sink.Emits (msgWriteUInt64 c) (uInt64Bytes c) () :=
  szWrite_emits _

theorem msgWriteInt64_eq : msgWriteInt64 c = msgWriteUInt64 (foldSign c) := by
  rw [msgWriteInt64, foldSign]
  split <;> rfl

theorem msgWriteSignedQEX_eq :
    msgWriteSignedQEX c = msgWriteULEB128 (foldSign c) := by
  rw [msgWriteSignedQEX, foldSign]
  split <;> rfl

end FteQuake
