import FteQuake.Common.MsgScalars
import Mathlib.Algebra.Order.Floor.Ring
import Mathlib.Data.Rat.Floor

/-!
# User commands and their Quake 2 delta

`usercmd_t` of `protocol.h`, and the Quake 2 delta encoding of `common.c`: a byte of change bits,
the changed fields, and the time and light level. With the `NPQ2_R1Q2_UCMD` primitive flag a second
byte holds the real buttons and, per field, whether a byte is sent in place of a short.

The reader of that form reads the second byte always; the writer sends it only when the buttons
changed or a field is compact, and puts the buttons in it only when the pitch changed. So the two
agree exactly when the byte is sent and the buttons it should hold are there
(`msgQ2DeltaUsercmd_roundTrip_iff`):

* when the byte is sent, they take the same steps (`q2Write_emits`, `q2Read_takes`);
* when it is not, the reader is one byte ahead of the writer, stays so over every field it reads
  right (`q2ReadField_staysAhead`), and ends past the bytes of the message (`not_q2RoundTrip`).

The float `msec` is its value, a rational number; the other floats are bit patterns.
-/

namespace FteQuake

open StreamProgram BitFlags MsgState Sizebuf List
open Option (some.inj)
open BitVec (eq_of_toNat_eq ofInt_natCast ofInt_toInt setWidth_and toNat_ofInt toNat_ofNat)

/-- `struct vrdevinfo_s`. -/
@[ext] structure VrDevInfo where
  status : BitVec 32
  angles : Fin 3 → BitVec 16
  avelocity : Fin 3 → BitVec 16
  origin : Fin 3 → BitVec 32
  velocity : Fin 3 → BitVec 32
  weapon : BitVec 64

/-- `usercmd_t`. -/
structure Usercmd where
  angles : Fin 3 → BitVec 16
  forwardmove : BitVec 32
  sidemove : BitVec 32
  upmove : BitVec 32
  impulse : BitVec 64
  lightlevel : BitVec 32
  msec : ℚ
  buttons : BitVec 64
  weapon : BitVec 64
  servertime : BitVec 32
  cursorScreen : Fin 2 → BitVec 32
  cursorStart : Fin 3 → BitVec 32
  cursorImpact : Fin 3 → BitVec 32
  cursorEntitynumber : BitVec 32
  /-- `VRDEV_LEFT`, `VRDEV_RIGHT`, `VRDEV_HEAD`. -/
  vr : Fin 3 → VrDevInfo

/-! ## The flags -/

def q2cmAngle1 : BitVec 32 := 1 <<< 0
def q2cmAngle2 : BitVec 32 := 1 <<< 1
def q2cmAngle3 : BitVec 32 := 1 <<< 2
def q2cmForward : BitVec 32 := 1 <<< 3
def q2cmSide : BitVec 32 := 1 <<< 4
def q2cmUp : BitVec 32 := 1 <<< 5
def q2cmButtons : BitVec 32 := 1 <<< 6
def q2cmImpulse : BitVec 32 := 1 <<< 7

def r1q2ButtonByteForward : QByte := 4
def r1q2ButtonByteSide : QByte := 8
def r1q2ButtonByteUp : QByte := 16
def r1q2ButtonByteAngle1 : QByte := 32
def r1q2ButtonByteAngle2 : QByte := 64

/-! ## The writer -/

/-- The change bits. -/
def q2ChangeBits (old cmd : Usercmd) : BitVec 32 :=
  0 |> orIf (cmd.angles 0 ≠ old.angles 0) q2cmAngle1
    |> orIf (cmd.angles 1 ≠ old.angles 1) q2cmAngle2
    |> orIf (cmd.angles 2 ≠ old.angles 2) q2cmAngle3
    |> orIf (cmd.forwardmove ≠ old.forwardmove) q2cmForward
    |> orIf (cmd.sidemove ≠ old.sidemove) q2cmSide
    |> orIf (cmd.upmove ≠ old.upmove) q2cmUp
    |> orIf (cmd.buttons ≠ old.buttons) q2cmButtons
    |> orIf (cmd.impulse ≠ old.impulse) q2cmImpulse

/-- `!(x % n) && abs(x / n) < 128`. -/
def Compact (n x : Int) : Prop := x.tmod n = 0 ∧ (x.tdiv n).natAbs < 128

instance (n x : Int) : Decidable (Compact n x) := inferInstanceAs (Decidable (_ ∧ _))

/-- The second byte of the R1Q2 form: buttons, and the fields sent in one byte. -/
def r1q2Buttons (bits : BitVec 32) (cmd : Usercmd) : QByte :=
  (if bits &&& q2cmAngle1 ≠ 0 then (cmd.buttons &&& (1 ||| 2 ||| 128)).setWidth 8 else 0)
    |> orIf (bits &&& q2cmForward ≠ 0 ∧ Compact 5 cmd.forwardmove.toInt) r1q2ButtonByteForward
    |> orIf (bits &&& q2cmSide ≠ 0 ∧ Compact 5 cmd.sidemove.toInt) r1q2ButtonByteSide
    |> orIf (bits &&& q2cmUp ≠ 0 ∧ Compact 5 cmd.upmove.toInt) r1q2ButtonByteUp
    |> orIf (bits &&& q2cmAngle1 ≠ 0 ∧ Compact 64 (cmd.angles 0).toInt) r1q2ButtonByteAngle1
    |> orIf (bits &&& q2cmAngle2 ≠ 0 ∧ (cmd.angles 1).toInt.tmod 256 = 0) r1q2ButtonByteAngle2

/-- The local `buttons` of `MSGQ2_WriteDeltaUsercmd`. -/
def q2Buttons (r1q2 : Bool) (old cmd : Usercmd) : QByte :=
  if r1q2 then r1q2Buttons (q2ChangeBits old cmd) cmd else 0

/-- The local `bits` of `MSGQ2_WriteDeltaUsercmd`. -/
def q2Bits (r1q2 : Bool) (old cmd : Usercmd) : BitVec 32 :=
  q2ChangeBits old cmd |> orIf
    (r1q2 ∧ q2Buttons r1q2 old cmd &&& (r1q2ButtonByteForward ||| r1q2ButtonByteSide |||
      r1q2ButtonByteUp ||| r1q2ButtonByteAngle1 ||| r1q2ButtonByteAngle2) ≠ 0) q2cmButtons

/-- A field that is sent when it changed, as `x / n` in a byte or else as a short. -/
def q2WriteField (sent compact : Prop) [Decidable sent] [Decidable compact] (n x : Int) :
    MsgWriter Unit :=
  if sent then
    if compact then msgWriteChar (x.tdiv n) else msgWriteShort x
  else pure ()

/-- `bound(0, msec, 250)` as an `int`. -/
def q2Msec (msec : ℚ) : Int := ⌊if msec ≥ 0 then if msec < 250 then msec else 250 else 0⌋

/-- `MSGQ2_WriteDeltaUsercmd`, for one setting of the primitive flag. -/
def q2Write (r1q2 : Bool) (old cmd : Usercmd) : MsgWriter Unit := do
  let buttons := q2Buttons r1q2 old cmd
  let bits := q2Bits r1q2 old cmd
  msgWriteByte bits.toNat
  (if r1q2 = true ∧ bits &&& q2cmButtons ≠ 0 then msgWriteByte buttons.toNat else pure ())
  q2WriteField (bits &&& q2cmAngle1 ≠ 0) (buttons &&& r1q2ButtonByteAngle1 ≠ 0) 64
    (cmd.angles 0).toInt
  q2WriteField (bits &&& q2cmAngle2 ≠ 0) (buttons &&& r1q2ButtonByteAngle2 ≠ 0) 256
    (cmd.angles 1).toInt
  (if bits &&& q2cmAngle3 ≠ 0 then msgWriteShort (cmd.angles 2).toInt else pure ())
  q2WriteField (bits &&& q2cmForward ≠ 0) (buttons &&& r1q2ButtonByteForward ≠ 0) 5
    cmd.forwardmove.toInt
  q2WriteField (bits &&& q2cmSide ≠ 0) (buttons &&& r1q2ButtonByteSide ≠ 0) 5 cmd.sidemove.toInt
  q2WriteField (bits &&& q2cmUp ≠ 0) (buttons &&& r1q2ButtonByteUp ≠ 0) 5 cmd.upmove.toInt
  (if r1q2 = false ∧ bits &&& q2cmButtons ≠ 0 then msgWriteByte (cmd.buttons.setWidth 32).toInt
    else pure ())
  (if bits &&& q2cmImpulse ≠ 0 then msgWriteByte (cmd.impulse.setWidth 32).toInt else pure ())
  msgWriteByte (q2Msec cmd.msec)
  msgWriteByte cmd.lightlevel.toInt

/-- `MSGQ2_WriteDeltaUsercmd`. -/
def msgQ2WriteDeltaUsercmd (old cmd : Usercmd) : MsgWriter Unit := do
  let buf ← get
  q2Write (decide (buf.prim.flags &&& npq2R1q2Ucmd ≠ 0)) old cmd

/-! ## The reader -/

/-- A field of the reader: a byte times `n` or a short, stored, or else what it was. -/
def q2ReadField {α : Type} (sent compact : Prop) [Decidable sent] [Decidable compact] (n : Int)
    (old : α) (store : Int → α) : MsgReader α :=
  if sent then
    if compact then (fun c => store (c * n)) <$> msgReadChar else store <$> msgReadShort
  else pure old

/-- `MSGQ2_ReadDeltaUsercmd` of a client that is not `SCP_QUAKE2EX`, for one setting of the
primitive flag. -/
def q2Read (r1q2 : Bool) (old : Usercmd) : MsgReader Usercmd := do
  let bits := BitVec.ofInt 32 (← msgReadByte)
  let buttons ← (if r1q2 = true then BitVec.ofInt 32 <$> msgReadByte else pure 0)
  let angle1 ← q2ReadField (bits &&& q2cmAngle1 ≠ 0)
    (buttons &&& r1q2ButtonByteAngle1.setWidth 32 ≠ 0) 64 (old.angles 0) (BitVec.ofInt 16)
  let angle2 ← q2ReadField (bits &&& q2cmAngle2 ≠ 0)
    (buttons &&& r1q2ButtonByteAngle2.setWidth 32 ≠ 0) 256 (old.angles 1) (BitVec.ofInt 16)
  let angle3 ← (if bits &&& q2cmAngle3 ≠ 0 then BitVec.ofInt 16 <$> msgReadShort
    else pure (old.angles 2))
  let forwardmove ← q2ReadField (bits &&& q2cmForward ≠ 0)
    (buttons &&& r1q2ButtonByteForward.setWidth 32 ≠ 0) 5 old.forwardmove (BitVec.ofInt 32)
  let sidemove ← q2ReadField (bits &&& q2cmSide ≠ 0)
    (buttons &&& r1q2ButtonByteSide.setWidth 32 ≠ 0) 5 old.sidemove (BitVec.ofInt 32)
  let upmove ← q2ReadField (bits &&& q2cmUp ≠ 0)
    (buttons &&& r1q2ButtonByteUp.setWidth 32 ≠ 0) 5 old.upmove (BitVec.ofInt 32)
  let moveButtons ←
    (if bits &&& q2cmButtons ≠ 0 then
      if r1q2 = true then pure ((buttons &&& (1 ||| 2 ||| 128)).setWidth 64)
      else BitVec.ofInt 64 <$> msgReadByte
    else pure old.buttons)
  let impulse ← (if bits &&& q2cmImpulse ≠ 0 then BitVec.ofInt 64 <$> msgReadByte
    else pure old.impulse)
  let msec ← msgReadByte
  let lightlevel ← msgReadByte
  return { old with
    angles := ![angle1, angle2, angle3], forwardmove := forwardmove, sidemove := sidemove,
    upmove := upmove, buttons := moveButtons, impulse := impulse, msec := msec,
    lightlevel := BitVec.ofInt 32 lightlevel }

/-- `MSGQ2_ReadDeltaUsercmd` of a client that is not `SCP_QUAKE2EX`. -/
def msgQ2ReadDeltaUsercmd (old : Usercmd) : MsgReader Usercmd := do
  let st ← get
  q2Read (decide (st.msgReadmsg.prim.flags &&& npq2R1q2Ucmd ≠ 0)) old

/-! ## Bytes and fields -/

def q2FieldBytes (sent compact : Prop) [Decidable sent] [Decidable compact] (n x : Int) :
    List QByte :=
  if sent then if compact then byteBytes (x.tdiv n) else shortBytes x else []

/-- The bytes of a message. -/
def q2Bytes (r1q2 : Bool) (old cmd : Usercmd) : List QByte :=
  let buttons := q2Buttons r1q2 old cmd
  let bits := q2Bits r1q2 old cmd
  byteBytes bits.toNat ++
  ((if r1q2 = true ∧ bits &&& q2cmButtons ≠ 0 then byteBytes buttons.toNat else []) ++
  (q2FieldBytes (bits &&& q2cmAngle1 ≠ 0) (buttons &&& r1q2ButtonByteAngle1 ≠ 0) 64
    (cmd.angles 0).toInt ++
  (q2FieldBytes (bits &&& q2cmAngle2 ≠ 0) (buttons &&& r1q2ButtonByteAngle2 ≠ 0) 256
    (cmd.angles 1).toInt ++
  ((if bits &&& q2cmAngle3 ≠ 0 then shortBytes (cmd.angles 2).toInt else []) ++
  (q2FieldBytes (bits &&& q2cmForward ≠ 0) (buttons &&& r1q2ButtonByteForward ≠ 0) 5
    cmd.forwardmove.toInt ++
  (q2FieldBytes (bits &&& q2cmSide ≠ 0) (buttons &&& r1q2ButtonByteSide ≠ 0) 5
    cmd.sidemove.toInt ++
  (q2FieldBytes (bits &&& q2cmUp ≠ 0) (buttons &&& r1q2ButtonByteUp ≠ 0) 5 cmd.upmove.toInt ++
  ((if r1q2 = false ∧ bits &&& q2cmButtons ≠ 0 then byteBytes (cmd.buttons.setWidth 32).toInt
    else []) ++
  ((if bits &&& q2cmImpulse ≠ 0 then byteBytes (cmd.impulse.setWidth 32).toInt else []) ++
  (byteBytes (q2Msec cmd.msec) ++ byteBytes cmd.lightlevel.toInt))))))))))

theorem q2WriteField_emits (sent compact : Prop) [Decidable sent] [Decidable compact] (n x : Int) :
    sink.Emits (q2WriteField sent compact n x) (q2FieldBytes sent compact n x) () :=
  Sink.Emits.ite fun _ =>
    Sink.Emits.cond (fun _ => msgWriteChar_emits _) fun _ => msgWriteShort_emits _

variable (r1q2 : Bool)

/-- **The writer appends the bytes of the message.** -/
theorem q2Write_emits (old cmd : Usercmd) :
    sink.Emits (q2Write r1q2 old cmd) (q2Bytes r1q2 old cmd) () := by
  unfold q2Write
  refine (msgWriteByte_emits _).seq ?_
  refine Sink.Emits.seq (Sink.Emits.ite fun _ => msgWriteByte_emits _) ?_
  refine (q2WriteField_emits _ _ _ _).seq ?_
  refine (q2WriteField_emits _ _ _ _).seq ?_
  refine Sink.Emits.seq (Sink.Emits.ite fun _ => msgWriteShort_emits _) ?_
  refine (q2WriteField_emits _ _ _ _).seq ?_
  refine (q2WriteField_emits _ _ _ _).seq ?_
  refine (q2WriteField_emits _ _ _ _).seq ?_
  refine Sink.Emits.seq (Sink.Emits.ite fun _ => msgWriteByte_emits _) ?_
  refine Sink.Emits.seq (Sink.Emits.ite fun _ => msgWriteByte_emits _) ?_
  exact (msgWriteByte_emits _).seq (msgWriteByte_emits _)

variable {n x : Int} {st : MsgState} {flags : QByte} {cmd old : Usercmd}

theorem Compact.exists (h : Compact n x) : ∃ k, x = k * n ∧ -128 < k ∧ k < 128 := by
  obtain ⟨hm, hd⟩ := h
  have e := Int.mul_tdiv_add_tmod x n
  rw [hm, Int.add_zero] at e
  exact ⟨x.tdiv n, by rw [Int.mul_comm, e], by omega, by omega⟩

theorem compact_of_eq_mul {k : Int} (hn : n ≠ 0) (hk : -128 < k) (hk' : k < 128) :
    Compact n (k * n) := by
  refine ⟨Int.mul_tmod_left k n, ?_⟩
  rw [Int.mul_tdiv_cancel k hn]
  omega

/-- **A field comes back** when the reader sees the same flags, a compact value is a small multiple
and a value that is not sent is the old one. -/
theorem q2ReadField_takes {α : Type} {sent compact sent' compact' : Prop} [Decidable sent] [Decidable compact]
    [Decidable sent'] [Decidable compact'] {old v : α} {store : Int → α} (hs : sent' ↔ sent) (hc : compact' ↔ compact)
    (hx : -2 ^ 15 ≤ x ∧ x < 2 ^ 15) (hv : store x = v) (hold : ¬sent → old = v)
    (hk : sent → compact → ∃ k, x = k * n ∧ n ≠ 0 ∧ -128 ≤ k ∧ k < 128) :
    source.Takes (q2ReadField sent' compact' n old store) (q2FieldBytes sent compact n x) v := by
  unfold q2ReadField q2FieldBytes
  by_cases h : sent
  · rw [if_pos h, if_pos (hs.2 h)]
    by_cases h' : compact
    · obtain ⟨k, rfl, hn, hk, hk'⟩ := hk h h'
      rw [if_pos h', if_pos (hc.2 h'), Int.mul_tdiv_cancel k hn]
      have e := (msgReadChar_byteBytes k).map fun c => store (c * n)
      rwa [toInt_ofInt_of_range (w := 7) (by omega) (by omega), hv] at e
    · rw [if_neg h', if_neg (mt hc.1 h')]
      have e := (msgReadShort_shortBytes x).map store
      rwa [toInt_ofInt_of_range (by omega) (by omega), hv] at e
  · rw [if_neg h, if_neg (mt hs.1 h), hold h]
    exact Source.Takes.pure v

/-! ## What the flags say -/

theorem ofInt_byte {x : BitVec 32} (h : x.toNat < 2 ^ 8) :
    BitVec.ofInt 32 (BitVec.ofInt 8 (x.toNat : Int)).toNat = x := by
  apply eq_of_toNat_eq
  rw [ofInt_natCast, ofInt_natCast, toNat_ofNat, toNat_ofNat]
  omega

theorem ofInt_qbyte (b : QByte) :
    BitVec.ofInt 32 (BitVec.ofInt 8 (b.toNat : Int)).toNat = b.setWidth 32 := by
  rw [ofInt_toNat, ofInt_natCast, BitVec.ofNat_toNat]

theorem q2Bits_lt (old cmd : Usercmd) : (q2Bits r1q2 old cmd).toNat < 2 ^ 8 := by
  unfold q2Bits q2ChangeBits
  repeat' refine orIf_lt (by decide) ?_
  decide

/-- The bits of the fields that have no other use for theirs. -/
theorem q2Bits_iff (old cmd : Usercmd) :
    (q2Bits r1q2 old cmd &&& q2cmAngle1 ≠ 0 ↔ cmd.angles 0 ≠ old.angles 0) ∧
    (q2Bits r1q2 old cmd &&& q2cmAngle2 ≠ 0 ↔ cmd.angles 1 ≠ old.angles 1) ∧
    (q2Bits r1q2 old cmd &&& q2cmAngle3 ≠ 0 ↔ cmd.angles 2 ≠ old.angles 2) ∧
    (q2Bits r1q2 old cmd &&& q2cmForward ≠ 0 ↔ cmd.forwardmove ≠ old.forwardmove) ∧
    (q2Bits r1q2 old cmd &&& q2cmSide ≠ 0 ↔ cmd.sidemove ≠ old.sidemove) ∧
    (q2Bits r1q2 old cmd &&& q2cmUp ≠ 0 ↔ cmd.upmove ≠ old.upmove) ∧
    (q2Bits r1q2 old cmd &&& q2cmImpulse ≠ 0 ↔ cmd.impulse ≠ old.impulse) := by
  simp [q2Bits, q2ChangeBits, q2cmAngle1, q2cmAngle2, q2cmAngle3, q2cmForward, q2cmSide, q2cmUp,
    q2cmButtons, q2cmImpulse]

/-- The real buttons and the compaction flags share no bit. -/
theorem buttons_and_eq_zero {c : Prop} [Decidable c] (x : BitVec 64) {f : QByte} (hf : 131 &&& f = 0) :
    (if c then (x &&& (1 ||| 2 ||| 128)).setWidth 8 else 0 : QByte) &&& f = 0 := by
  split
  · rw [setWidth_and, BitVec.and_assoc, show BitVec.setWidth 8 (1 ||| 2 ||| 128 : BitVec 64) &&& f = 0 from hf]
    exact BitVec.and_zero
  · exact BitVec.zero_and

/-- The change bits of the fields that may be compact. -/
theorem q2ChangeBits_iff (old cmd : Usercmd) :
    (q2ChangeBits old cmd &&& q2cmAngle1 ≠ 0 ↔ cmd.angles 0 ≠ old.angles 0) ∧
    (q2ChangeBits old cmd &&& q2cmAngle2 ≠ 0 ↔ cmd.angles 1 ≠ old.angles 1) ∧
    (q2ChangeBits old cmd &&& q2cmForward ≠ 0 ↔ cmd.forwardmove ≠ old.forwardmove) ∧
    (q2ChangeBits old cmd &&& q2cmSide ≠ 0 ↔ cmd.sidemove ≠ old.sidemove) ∧
    (q2ChangeBits old cmd &&& q2cmUp ≠ 0 ↔ cmd.upmove ≠ old.upmove) ∧
    (q2ChangeBits old cmd &&& q2cmButtons ≠ 0 ↔ cmd.buttons ≠ old.buttons) := by
  simp [q2ChangeBits, q2cmAngle1, q2cmAngle2, q2cmAngle3, q2cmForward, q2cmSide, q2cmUp, q2cmButtons, q2cmImpulse]

/-- The fields the second byte announces as compact. -/
theorem r1q2Buttons_iff (old cmd : Usercmd) :
    (q2Buttons true old cmd &&& r1q2ButtonByteAngle1 ≠ 0 ↔
      cmd.angles 0 ≠ old.angles 0 ∧ Compact 64 (cmd.angles 0).toInt) ∧
    (q2Buttons true old cmd &&& r1q2ButtonByteAngle2 ≠ 0 ↔
      cmd.angles 1 ≠ old.angles 1 ∧ (cmd.angles 1).toInt.tmod 256 = 0) ∧
    (q2Buttons true old cmd &&& r1q2ButtonByteForward ≠ 0 ↔
      cmd.forwardmove ≠ old.forwardmove ∧ Compact 5 cmd.forwardmove.toInt) ∧
    (q2Buttons true old cmd &&& r1q2ButtonByteSide ≠ 0 ↔
      cmd.sidemove ≠ old.sidemove ∧ Compact 5 cmd.sidemove.toInt) ∧
    (q2Buttons true old cmd &&& r1q2ButtonByteUp ≠ 0 ↔
      cmd.upmove ≠ old.upmove ∧ Compact 5 cmd.upmove.toInt) := by
  obtain ⟨h1, h2, hf, hs, hu, -⟩ := q2ChangeBits_iff old cmd
  simp only [q2Buttons, r1q2Buttons, h1, h2, hf, hs, hu, if_true]
  have hreal : ∀ f : QByte, 131 &&& f = 0 → (if cmd.angles 0 ≠ old.angles 0 then
      (cmd.buttons &&& (1 ||| 2 ||| 128)).setWidth 8 else 0 : QByte) &&& f = 0 :=
    fun f hf => buttons_and_eq_zero cmd.buttons hf
  generalize (if cmd.angles 0 ≠ old.angles 0 then (cmd.buttons &&& (1 ||| 2 ||| 128)).setWidth 8
    else 0 : QByte) = real at hreal ⊢
  refine ⟨?_, ?_, ?_, ?_, ?_⟩ <;>
    simp [r1q2ButtonByteAngle1, r1q2ButtonByteAngle2, r1q2ButtonByteForward, r1q2ButtonByteSide,
      r1q2ButtonByteUp, hreal]

/-- The real buttons in the second byte: those of the command if the pitch changed. -/
theorem r1q2Buttons_real (old cmd : Usercmd) :
    ((q2Buttons true old cmd).setWidth 32 &&& (1 ||| 2 ||| 128)).setWidth 64 =
      if cmd.angles 0 ≠ old.angles 0 then cmd.buttons &&& (1 ||| 2 ||| 128) else 0 := by
  have e : q2Buttons true old cmd &&& 131 =
      if cmd.angles 0 ≠ old.angles 0 then (cmd.buttons &&& (1 ||| 2 ||| 128)).setWidth 8 else 0 := by
    simp only [q2Buttons, r1q2Buttons, if_true, (q2ChangeBits_iff old cmd).1]
    iterate 5 rw [orIf_and_of_and_eq_zero (by decide)]
    split
    · rw [setWidth_and, BitVec.and_assoc]
      rfl
    · rfl
  have e' : ((q2Buttons true old cmd).setWidth 32 &&& (1 ||| 2 ||| 128)).setWidth 64 =
      (q2Buttons true old cmd &&& 131).setWidth 64 := by
    rw [setWidth_and, setWidth_and]
    congr 1
  rw [e', e]
  split
  · apply eq_of_toNat_eq
    have : (cmd.buttons &&& (1 ||| 2 ||| 128)).toNat ≤ 131 := by
      rw [BitVec.toNat_and]
      exact Nat.and_le_right
    simp only [BitVec.toNat_setWidth]
    omega
  · rfl

/-! ## Messages with the second byte where the reader expects it -/

/-- The moves, buttons and impulse are in the ranges of the fields of the message. -/
structure Q2Range (cmd : Usercmd) : Prop where
  forwardmove : -2 ^ 15 ≤ cmd.forwardmove.toInt ∧ cmd.forwardmove.toInt < 2 ^ 15
  sidemove : -2 ^ 15 ≤ cmd.sidemove.toInt ∧ cmd.sidemove.toInt < 2 ^ 15
  upmove : -2 ^ 15 ≤ cmd.upmove.toInt ∧ cmd.upmove.toInt < 2 ^ 15
  buttons : cmd.buttons.toNat < 2 ^ 8
  impulse : cmd.impulse.toNat < 2 ^ 8

/-- `move` is `cmd` in what a message carries; the R1Q2 form carries three of the buttons. -/
structure Q2Agrees (r1q2 : Bool) (cmd move : Usercmd) : Prop where
  angles : move.angles = cmd.angles
  forwardmove : move.forwardmove = cmd.forwardmove
  sidemove : move.sidemove = cmd.sidemove
  upmove : move.upmove = cmd.upmove
  buttons : move.buttons = if r1q2 then cmd.buttons &&& (1 ||| 2 ||| 128) else cmd.buttons
  impulse : move.impulse = cmd.impulse
  msec : move.msec = cmd.msec
  lightlevel : move.lightlevel = cmd.lightlevel

/-- The command the reader returns. -/
def q2Decoded (r1q2 : Bool) (old cmd : Usercmd) : Usercmd :=
  { old with
    angles := cmd.angles
    forwardmove := cmd.forwardmove
    sidemove := cmd.sidemove
    upmove := cmd.upmove
    buttons := if r1q2 then
        if cmd.angles 0 ≠ old.angles 0 then cmd.buttons &&& (1 ||| 2 ||| 128) else 0
      else cmd.buttons
    impulse := cmd.impulse
    msec := ((BitVec.ofInt 8 (q2Msec cmd.msec)).toNat : Int)
    lightlevel := BitVec.ofInt 32 (BitVec.ofInt 8 cmd.lightlevel.toInt).toNat }

/-- A number below 256 comes back from its low byte. -/
theorem ofInt_low_byte {x : BitVec 64} (h : x.toNat < 2 ^ 8) :
    BitVec.ofInt 64 (BitVec.ofInt 8 (x.setWidth 32).toInt).toNat = x := by
  have e : (x.setWidth 32).toInt = (x.toNat : Int) := by
    rw [BitVec.toInt_eq_toNat_cond, BitVec.toNat_setWidth]
    split <;> omega
  apply eq_of_toNat_eq
  rw [e, ofInt_natCast, ofInt_natCast, toNat_ofNat, toNat_ofNat]
  omega

/-- A changed angle whose low byte is zero is a multiple of 256. -/
theorem exists_of_tmod_256 {x : BitVec 16} (h : x.toInt.tmod 256 = 0) :
    ∃ k, x.toInt = k * 256 ∧ (256 : Int) ≠ 0 ∧ -128 ≤ k ∧ k < 128 := by
  have e := Int.mul_tdiv_add_tmod x.toInt 256
  have hl := BitVec.le_two_mul_toInt (x := x)
  have hu := BitVec.two_mul_toInt_lt (x := x)
  exact ⟨x.toInt.tdiv 256, by omega, by omega, by omega, by omega⟩

theorem Compact.field (hn : n ≠ 0) (h : Compact n x) :
    ∃ k, x = k * n ∧ n ≠ 0 ∧ -128 ≤ k ∧ k < 128 := by
  obtain ⟨k, hk, hl, hu⟩ := h.exists
  exact ⟨k, hk, hn, by omega, hu⟩

theorem toInt_range (x : BitVec 16) : -2 ^ 15 ≤ x.toInt ∧ x.toInt < 2 ^ 15 := by
  have hl := BitVec.le_two_mul_toInt (x := x)
  have hu := BitVec.two_mul_toInt_lt (x := x)
  omega

/-- What is announced as compact is a small multiple. -/
theorem q2Buttons_compact (old cmd : Usercmd) :
    (q2Buttons r1q2 old cmd &&& r1q2ButtonByteAngle1 ≠ 0 →
      ∃ k, (cmd.angles 0).toInt = k * 64 ∧ (64 : Int) ≠ 0 ∧ -128 ≤ k ∧ k < 128) ∧
    (q2Buttons r1q2 old cmd &&& r1q2ButtonByteAngle2 ≠ 0 →
      ∃ k, (cmd.angles 1).toInt = k * 256 ∧ (256 : Int) ≠ 0 ∧ -128 ≤ k ∧ k < 128) ∧
    (q2Buttons r1q2 old cmd &&& r1q2ButtonByteForward ≠ 0 →
      ∃ k, cmd.forwardmove.toInt = k * 5 ∧ (5 : Int) ≠ 0 ∧ -128 ≤ k ∧ k < 128) ∧
    (q2Buttons r1q2 old cmd &&& r1q2ButtonByteSide ≠ 0 →
      ∃ k, cmd.sidemove.toInt = k * 5 ∧ (5 : Int) ≠ 0 ∧ -128 ≤ k ∧ k < 128) ∧
    (q2Buttons r1q2 old cmd &&& r1q2ButtonByteUp ≠ 0 →
      ∃ k, cmd.upmove.toInt = k * 5 ∧ (5 : Int) ≠ 0 ∧ -128 ≤ k ∧ k < 128) := by
  cases r1q2 with
  | false => simp [q2Buttons]
  | true =>
    obtain ⟨h1, h2, hf, hs, hu⟩ := r1q2Buttons_iff old cmd
    exact ⟨fun h => (h1.1 h).2.field (by omega), fun h => exists_of_tmod_256 (h2.1 h).2,
      fun h => (hf.1 h).2.field (by omega), fun h => (hs.1 h).2.field (by omega),
      fun h => (hu.1 h).2.field (by omega)⟩

/-- The buttons: those of the second byte, or a byte of their own. -/
theorem q2ReadButtons_takes {r1q2 : Bool} (h : Q2Range cmd)
    (hbyte : r1q2 = true → q2Bits r1q2 old cmd &&& q2cmButtons ≠ 0) :
    source.Takes
      (if q2Bits r1q2 old cmd &&& q2cmButtons ≠ 0 then
        if r1q2 = true then
          pure (((q2Buttons r1q2 old cmd).setWidth 32 &&& (1 ||| 2 ||| 128)).setWidth 64)
        else BitVec.ofInt 64 <$> msgReadByte
      else pure old.buttons)
      (if r1q2 = false ∧ q2Bits r1q2 old cmd &&& q2cmButtons ≠ 0 then
        byteBytes (cmd.buttons.setWidth 32).toInt else [])
      (q2Decoded r1q2 old cmd).buttons := by
  cases r1q2 with
  | true =>
    rw [if_pos (hbyte rfl), if_pos rfl, if_neg (by simp), r1q2Buttons_real]
    exact Source.Takes.pure _
  | false =>
    have hsent : q2Bits false old cmd &&& q2cmButtons ≠ 0 ↔ cmd.buttons ≠ old.buttons := by
      rw [← (q2ChangeBits_iff old cmd).2.2.2.2.2]
      simp [q2Bits, q2cmButtons]
    by_cases h' : q2Bits false old cmd &&& q2cmButtons ≠ 0
    · rw [if_pos h', if_neg (by simp), if_pos ⟨rfl, h'⟩]
      have e := (msgReadByte_byteBytes (cmd.buttons.setWidth 32).toInt).map (BitVec.ofInt 64)
      rwa [ofInt_low_byte h.buttons] at e
    · rw [if_neg h', if_neg (fun hn => h' hn.2), ← not_not.1 (mt hsent.2 h')]
      exact Source.Takes.pure _

/-- **With the second byte in place the reader takes the message.** -/
theorem q2Read_takes {r1q2 : Bool} (h : Q2Range cmd) (hbyte : r1q2 = true → q2Bits r1q2 old cmd &&& q2cmButtons ≠ 0) :
    source.Takes (q2Read r1q2 old) (q2Bytes r1q2 old cmd) (q2Decoded r1q2 old cmd) := by
  obtain ⟨ha1, ha2, ha3, hf, hs, hu, hi⟩ := q2Bits_iff r1q2 old cmd
  obtain ⟨hc1, hc2, hcf, hcs, hcu⟩ := q2Buttons_compact r1q2 old cmd
  have hcompact : ∀ f : QByte, (BitVec.setWidth 32 (q2Buttons r1q2 old cmd) &&& f.setWidth 32 ≠ 0 ↔
      q2Buttons r1q2 old cmd &&& f ≠ 0) := setWidth_and_ne_zero (by omega) _
  unfold q2Read q2Bytes
  refine (msgReadByte_byteBytes _).bind ?_
  rw [ofInt_byte (q2Bits_lt r1q2 old cmd)]
  have hb : source.Takes (if r1q2 = true then BitVec.ofInt 32 <$> msgReadByte else pure 0)
      (if r1q2 = true ∧ q2Bits r1q2 old cmd &&& q2cmButtons ≠ 0 then
        byteBytes (q2Buttons r1q2 old cmd).toNat else [])
      ((q2Buttons r1q2 old cmd).setWidth 32) := by
    cases r1q2 with
    | false => exact Source.Takes.pure _
    | true =>
      rw [if_pos rfl, if_pos ⟨rfl, hbyte rfl⟩, ← ofInt_qbyte]
      exact (msgReadByte_byteBytes _).map _
  refine hb.bind ?_
  refine (q2ReadField_takes Iff.rfl (hcompact _) (toInt_range _) ofInt_toInt
    (fun hn => (not_not.1 (mt ha1.2 hn)).symm) fun _ => hc1).bind ?_
  refine (q2ReadField_takes Iff.rfl (hcompact _) (toInt_range _) ofInt_toInt
    (fun hn => (not_not.1 (mt ha2.2 hn)).symm) fun _ => hc2).bind ?_
  have h3 : source.Takes (if q2Bits r1q2 old cmd &&& q2cmAngle3 ≠ 0 then
        BitVec.ofInt 16 <$> msgReadShort else pure (old.angles 2))
      (if q2Bits r1q2 old cmd &&& q2cmAngle3 ≠ 0 then shortBytes (cmd.angles 2).toInt else [])
      (cmd.angles 2) := by
    by_cases h' : q2Bits r1q2 old cmd &&& q2cmAngle3 ≠ 0
    · rw [if_pos h', if_pos h']
      have e := (msgReadShort_shortBytes (cmd.angles 2).toInt).map (BitVec.ofInt 16)
      rwa [ofInt_toInt, ofInt_toInt] at e
    · rw [if_neg h', if_neg h', not_not.1 (mt ha3.2 h')]
      exact Source.Takes.pure _
  refine h3.bind ?_
  refine (q2ReadField_takes Iff.rfl (hcompact _) h.forwardmove ofInt_toInt
    (fun hn => (not_not.1 (mt hf.2 hn)).symm) fun _ => hcf).bind ?_
  refine (q2ReadField_takes Iff.rfl (hcompact _) h.sidemove ofInt_toInt
    (fun hn => (not_not.1 (mt hs.2 hn)).symm) fun _ => hcs).bind ?_
  refine (q2ReadField_takes Iff.rfl (hcompact _) h.upmove ofInt_toInt
    (fun hn => (not_not.1 (mt hu.2 hn)).symm) fun _ => hcu).bind ?_
  refine (q2ReadButtons_takes h hbyte).bind ?_
  have himp : source.Takes (if q2Bits r1q2 old cmd &&& q2cmImpulse ≠ 0 then
        BitVec.ofInt 64 <$> msgReadByte else pure old.impulse)
      (if q2Bits r1q2 old cmd &&& q2cmImpulse ≠ 0 then byteBytes (cmd.impulse.setWidth 32).toInt
        else []) cmd.impulse := by
    by_cases h' : q2Bits r1q2 old cmd &&& q2cmImpulse ≠ 0
    · rw [if_pos h', if_pos h']
      have e := (msgReadByte_byteBytes (cmd.impulse.setWidth 32).toInt).map (BitVec.ofInt 64)
      rwa [ofInt_low_byte h.impulse] at e
    · rw [if_neg h', if_neg h', not_not.1 (mt hi.2 h')]
      exact Source.Takes.pure _
  refine himp.bind ?_
  refine (msgReadByte_byteBytes _).bind ?_
  rw [← append_nil (byteBytes cmd.lightlevel.toInt)]
  refine (msgReadByte_byteBytes _).bind ?_
  rw [vec3_eta]
  exact Source.Takes.pure _

/-! ## Messages without the second byte

The reader has taken a byte too many. It stays one byte ahead of the writer over every field that
it reads right, and so it ends one byte past the message. -/

/-- A reader that is one byte ahead of `xs` and returns `v` is one byte ahead of what follows. -/
def StaysAhead {α : Type} (m : MsgReader α) (xs : List QByte) (v : α) : Prop :=
  ∀ (st st' : MsgState) (rest : List QByte), rest ≠ [] → st.Ahead (xs ++ rest).tail →
    m.run st = some (v, st') → st' = st.skip xs.length ∧ st'.Ahead rest.tail

theorem StaysAhead.pure {α : Type} (v a : α) : StaysAhead (pure v) [] a := by
  intro st st' rest _ hst hrun
  obtain ⟨-, rfl⟩ := Prod.mk.inj (some.inj hrun)
  exact ⟨(source.skip_zero st).symm, hst⟩

/-- A reader that takes as many bytes as `xs` has. -/
theorem StaysAhead.of_length {α : Type} {m : MsgReader α} {xs : List QByte} {v : α}
    (h : ∀ ys : List QByte, ys.length = xs.length → ∃ a, source.Takes m ys a) :
    StaysAhead m xs v := by
  intro st st' rest hrest hst hrun
  -- what lies ahead begins with as many bytes as `xs` has
  have hlen : xs.length ≤ (xs ++ rest).tail.length := by
    have := length_pos_iff.2 hrest
    rw [length_tail, length_append]
    omega
  have htake : ((xs ++ rest).tail.take xs.length).length = xs.length := by
    rw [length_take, Nat.min_eq_left hlen]
  have hdrop : (xs ++ rest).tail.drop xs.length = rest.tail := by
    rw [drop_tail, ← tail_drop, drop_left]
  obtain ⟨a, ha⟩ := h _ htake
  rw [← take_append_drop xs.length (xs ++ rest).tail] at hst
  rw [ha st _ hst] at hrun
  obtain ⟨-, rfl⟩ := Prod.mk.inj (some.inj hrun)
  have hskip := Ahead.skip hst
  rw [htake, hdrop] at hskip
  rw [htake]
  exact ⟨rfl, hskip⟩

theorem StaysAhead.ite {α : Type} {p : Prop} [Decidable p] {m : MsgReader α} {xs : List QByte}
    {v d : α} (h : p → StaysAhead m xs v) :
    StaysAhead (if p then m else Pure.pure d) (if p then xs else []) v := by
  by_cases hp : p
  · rw [if_pos hp, if_pos hp]
    exact h hp
  · rw [if_neg hp, if_neg hp]
    exact StaysAhead.pure _ _

theorem length_byteBytes (c : Int) : (byteBytes c).length = 1 := rfl

theorem staysAhead_byte (c v : Int) : StaysAhead msgReadByte (byteBytes c) v := by
  refine StaysAhead.of_length fun ys hys => ?_
  obtain ⟨b, rfl⟩ := length_eq_one_iff.1 hys
  exact ⟨_, msgReadByte_takes b⟩

theorem staysAhead_map_byte {α : Type} (f : Int → α) (c : Int) (v : α) :
    StaysAhead (f <$> msgReadByte) (byteBytes c) v := by
  refine StaysAhead.of_length fun ys hys => ?_
  obtain ⟨b, rfl⟩ := length_eq_one_iff.1 hys
  exact ⟨_, (msgReadByte_takes b).map f⟩

theorem staysAhead_map_short {α : Type} (f : Int → α) (c : Int) (v : α) :
    StaysAhead (f <$> msgReadShort) (shortBytes c) v := by
  refine StaysAhead.of_length fun ys hys => ?_
  obtain ⟨b, b', rfl⟩ := length_eq_two.1 hys
  exact ⟨_, (msgReadShort_takes b b').map f⟩

theorem shortBytes_eq (x : Int) (h : -2 ^ 15 ≤ x) (h' : x < 2 ^ 15) :
    ∃ lo hi : QByte, shortBytes x = [lo, hi] ∧ x = lo.toNat + 256 * hi.toInt := by
  refine ⟨_, _, rfl, ?_⟩
  have e : x >>> (8 : ℕ) = x / 256 := Int.shiftRight_eq_div_pow x 8
  rw [e, toInt_ofInt_of_range (w := 7) (by omega) (by omega), toNat_ofInt]
  omega

/-- **A field stays ahead**, unless it is a compact value whose high byte is that multiple. -/
theorem q2ReadField_staysAhead {α : Type} {sent compact : Prop} [Decidable sent] [Decidable compact] {old v : α}
    {store : Int → α} (hx : -2 ^ 15 ≤ x ∧ x < 2 ^ 15) (hstore : ∀ c, -128 ≤ c → c < 128 → store (c * n) = v → c * n = x)
    (hno : sent → ∀ lo hi : Int, 0 ≤ lo → lo < 256 → -128 ≤ hi → hi < 128 → x = lo + 256 * hi → x ≠ hi * n) :
    StaysAhead (q2ReadField sent compact n old store) (if sent then shortBytes x else []) v := by
  unfold q2ReadField
  by_cases h : sent
  · rw [if_pos h, if_pos h]
    by_cases h' : compact
    · -- the high byte is taken for the compact value
      rw [if_pos h']
      intro st st' rest hrest hst hrun
      obtain ⟨lo, hi, hbytes, hval⟩ := shortBytes_eq x hx.1 hx.2
      rw [hbytes] at hst
      have e := (msgReadChar_takes hi).map (fun c => store (c * n)) st rest hst
      rw [e] at hrun
      have hlo := lo.isLt
      have hl := BitVec.le_two_mul_toInt (x := hi)
      have hu := BitVec.two_mul_toInt_lt (x := hi)
      have hmul := hstore hi.toInt (by omega) (by omega) (Prod.mk.inj (some.inj hrun)).1
      exact absurd hmul.symm (hno h lo.toNat hi.toInt (by omega) (by omega) (by omega) (by omega) hval)
    · rw [if_neg h']
      exact staysAhead_map_short store x v
  · rw [if_neg h, if_neg h]
    exact StaysAhead.pure _ _

/-- A value that equals `n` times its high byte is compact. -/
theorem compact_of_high_byte {lo hi : Int} (hn : n = 5 ∨ n = 64) (hlo : 0 ≤ lo) (hlo' : lo < 256)
    (hhi : -128 ≤ hi) (hhi' : hi < 128) (h : x = lo + 256 * hi) (h' : x = hi * n) :
    Compact n x := by
  rw [h']
  rcases hn with rfl | rfl
  · exact compact_of_eq_mul (by omega) (by omega) (by omega)
  · exact compact_of_eq_mul (by omega) (by omega) (by omega)

theorem store16 {x : BitVec 16} (hn : 0 < n) (hn' : n ≤ 256) {c : Int} (hc : -128 ≤ c)
    (hc' : c < 128) (h : BitVec.ofInt 16 (c * n) = x) : c * n = x.toInt := by
  have hl : -128 * 256 ≤ c * n := by nlinarith
  have hu : c * n ≤ 127 * 256 := by nlinarith
  rw [← h, toInt_ofInt_of_range (w := 15) (by omega) (by omega)]

theorem store32 {x : BitVec 32} {c : Int} (hc : -128 ≤ c) (hc' : c < 128)
    (h : BitVec.ofInt 32 (c * 5) = x) : c * 5 = x.toInt := by
  rw [← h, toInt_ofInt_of_range (w := 31) (by omega) (by omega)]

theorem msgReadByte_of_ahead {zs : List QByte} (h : st.Ahead zs) (hz : zs ≠ []) :
    (∃ a, msgReadByte.run st = some (a, st.skip 1)) ∧ (st.skip 1).Ahead zs.tail := by
  obtain ⟨b, zs, rfl⟩ := exists_cons_of_ne_nil hz
  exact ⟨⟨_, msgReadByte_takes b st zs h⟩, Ahead.skip (show st.Ahead ([b] ++ zs) from h)⟩

/-- The fields of a message without the second byte. -/
def q2Fields (old cmd : Usercmd) : List QByte :=
  let bits := q2Bits true old cmd
  (if bits &&& q2cmAngle1 ≠ 0 then shortBytes (cmd.angles 0).toInt else []) ++
  ((if bits &&& q2cmAngle2 ≠ 0 then shortBytes (cmd.angles 1).toInt else []) ++
  ((if bits &&& q2cmAngle3 ≠ 0 then shortBytes (cmd.angles 2).toInt else []) ++
  ((if bits &&& q2cmForward ≠ 0 then shortBytes cmd.forwardmove.toInt else []) ++
  ((if bits &&& q2cmSide ≠ 0 then shortBytes cmd.sidemove.toInt else []) ++
  ((if bits &&& q2cmUp ≠ 0 then shortBytes cmd.upmove.toInt else []) ++
  ((if bits &&& q2cmImpulse ≠ 0 then byteBytes (cmd.impulse.setWidth 32).toInt else []) ++
  (byteBytes (q2Msec cmd.msec) ++ byteBytes cmd.lightlevel.toInt)))))))

theorem compactFlags_eq_zero {b : QByte} :
    b &&& (r1q2ButtonByteForward ||| r1q2ButtonByteSide ||| r1q2ButtonByteUp |||
      r1q2ButtonByteAngle1 ||| r1q2ButtonByteAngle2) = 0 ↔
    b &&& r1q2ButtonByteAngle1 = 0 ∧ b &&& r1q2ButtonByteAngle2 = 0 ∧
    b &&& r1q2ButtonByteForward = 0 ∧ b &&& r1q2ButtonByteSide = 0 ∧
    b &&& r1q2ButtonByteUp = 0 := by
  constructor
  · intro h
    obtain ⟨hrest, hm2⟩ := and_or_eq_zero.1 h
    obtain ⟨hrest, hm1⟩ := and_or_eq_zero.1 hrest
    obtain ⟨hrest, hmu⟩ := and_or_eq_zero.1 hrest
    obtain ⟨hmf, hms⟩ := and_or_eq_zero.1 hrest
    exact ⟨hm1, hm2, hmf, hms, hmu⟩
  · rintro ⟨hm1, hm2, hmf, hms, hmu⟩
    exact and_or_eq_zero.2 ⟨and_or_eq_zero.2 ⟨and_or_eq_zero.2 ⟨and_or_eq_zero.2 ⟨hmf, hms⟩, hmu⟩, hm1⟩, hm2⟩

/-- A second byte that is not sent announces nothing. -/
theorem q2Buttons_of_no_byte (h : q2Bits true old cmd &&& q2cmButtons = 0) :
    q2Buttons true old cmd &&& r1q2ButtonByteAngle1 = 0 ∧
    q2Buttons true old cmd &&& r1q2ButtonByteAngle2 = 0 ∧
    q2Buttons true old cmd &&& r1q2ButtonByteForward = 0 ∧
    q2Buttons true old cmd &&& r1q2ButtonByteSide = 0 ∧
    q2Buttons true old cmd &&& r1q2ButtonByteUp = 0 := by
  refine compactFlags_eq_zero.1 ?_
  by_contra hne
  exact absurd ((orIf_and_eq_zero.1 h).1 ⟨rfl, hne⟩) (by decide)

/-- Nothing is compact in a message without the second byte. -/
theorem not_compact_of_no_byte (h : q2Bits true old cmd &&& q2cmButtons = 0) :
    (cmd.angles 0 ≠ old.angles 0 → ¬Compact 64 (cmd.angles 0).toInt) ∧
    (cmd.angles 1 ≠ old.angles 1 → (cmd.angles 1).toInt.tmod 256 ≠ 0) ∧
    (cmd.forwardmove ≠ old.forwardmove → ¬Compact 5 cmd.forwardmove.toInt) ∧
    (cmd.sidemove ≠ old.sidemove → ¬Compact 5 cmd.sidemove.toInt) ∧
    (cmd.upmove ≠ old.upmove → ¬Compact 5 cmd.upmove.toInt) := by
  obtain ⟨h1, h2, hf, hs, hu⟩ := r1q2Buttons_iff old cmd
  obtain ⟨hm1, hm2, hmf, hms, hmu⟩ := q2Buttons_of_no_byte h
  exact ⟨fun hc hk => h1.2 ⟨hc, hk⟩ hm1, fun hc hk => h2.2 ⟨hc, hk⟩ hm2,
    fun hc hk => hf.2 ⟨hc, hk⟩ hmf, fun hc hk => hs.2 ⟨hc, hk⟩ hms, fun hc hk => hu.2 ⟨hc, hk⟩ hmu⟩

theorem q2FieldBytes_of_not_compact {sent compact : Prop} [Decidable sent] [Decidable compact] (hk : ¬compact) :
    q2FieldBytes sent compact n x = if sent then shortBytes x else [] := by
  rw [q2FieldBytes, if_neg hk]

theorem q2Bytes_of_no_byte (h : q2Bits true old cmd &&& q2cmButtons = 0) :
    q2Bytes true old cmd = byteBytes (q2Bits true old cmd).toNat ++ q2Fields old cmd := by
  obtain ⟨hm1, hm2, hmf, hms, hmu⟩ := q2Buttons_of_no_byte h
  rw [q2Bytes, q2Fields, if_neg (by simp [h]), q2FieldBytes_of_not_compact (not_not.2 hm1),
    q2FieldBytes_of_not_compact (not_not.2 hm2), q2FieldBytes_of_not_compact (not_not.2 hmf),
    q2FieldBytes_of_not_compact (not_not.2 hms), q2FieldBytes_of_not_compact (not_not.2 hmu),
    if_neg (show ¬(true = false ∧ _) by simp), nil_append, nil_append]

/-- **Without the second byte, a reader that returns the command has gone past the message.** -/
theorem q2Read_of_no_byte {move : Usercmd} (h : q2Bits true old cmd &&& q2cmButtons = 0)
    (hr : Q2Range cmd) (hm : Q2Agrees true cmd move) {st' : MsgState}
    (hst : st.Ahead (q2Bytes true old cmd ++ [0])) (hrun : (q2Read true old).run st = some (move, st')) :
    st' = st.skip ((q2Bytes true old cmd).length + 1) := by
  obtain ⟨ha1, ha2, ha3, haf, has, hau, hi⟩ := q2Bits_iff true old cmd
  obtain ⟨hn1, hn2, hnf, hns, hnu⟩ := not_compact_of_no_byte h
  rw [q2Bytes_of_no_byte h, append_assoc] at hst
  have e := (msgReadByte_byteBytes (q2Bits true old cmd).toNat) st _ hst
  unfold q2Read at hrun
  obtain ⟨b, s, hb, hrun⟩ := run_bind_inv hrun
  obtain ⟨rfl, rfl⟩ := Prod.mk.inj (some.inj (e.symm.trans hb))
  dsimp only at hrun
  rw [ofInt_byte (q2Bits_lt true old cmd)] at hrun
  obtain ⟨buttons, s, hbuttons, hrun⟩ := run_bind_inv hrun
  obtain ⟨a1, s1, e1, hrun⟩ := run_bind_inv hrun
  obtain ⟨a2, s2, e2, hrun⟩ := run_bind_inv hrun
  obtain ⟨a3, s3, e3, hrun⟩ := run_bind_inv hrun
  obtain ⟨forwardmove, s4, e4, hrun⟩ := run_bind_inv hrun
  obtain ⟨sidemove, s5, e5, hrun⟩ := run_bind_inv hrun
  obtain ⟨upmove, s6, e6, hrun⟩ := run_bind_inv hrun
  obtain ⟨b, s7, e7, hrun⟩ := run_bind_inv hrun
  obtain ⟨impulse, s8, e8, hrun⟩ := run_bind_inv hrun
  obtain ⟨msec, s9, e9, hrun⟩ := run_bind_inv hrun
  obtain ⟨lightlevel, s10, e10, hrun⟩ := run_bind_inv hrun
  obtain ⟨rfl, rfl⟩ := Prod.mk.inj (some.inj hrun)
  -- what the reader returned is what was sent
  obtain rfl : a1 = cmd.angles 0 := congrFun hm.angles 0
  obtain rfl : a2 = cmd.angles 1 := congrFun hm.angles 1
  obtain rfl : a3 = cmd.angles 2 := congrFun hm.angles 2
  obtain rfl : forwardmove = cmd.forwardmove := hm.forwardmove
  obtain rfl : sidemove = cmd.sidemove := hm.sidemove
  obtain rfl : upmove = cmd.upmove := hm.upmove
  obtain rfl : impulse = cmd.impulse := hm.impulse
  unfold q2Fields at hst
  simp only [append_assoc] at hst
  -- the second byte is the first of the fields
  have hfields := Ahead.skip hst
  obtain ⟨⟨a, e0⟩, hs⟩ := msgReadByte_of_ahead hfields (by simp)
  have hs0 : s = (st.skip 1).skip 1 := by
    rw [if_pos rfl, StateT.run_map] at hbuttons
    erw [e0] at hbuttons
    exact (Prod.mk.inj (some.inj hbuttons)).2.symm
  obtain ⟨t1, h1⟩ := q2ReadField_staysAhead (toInt_range _) (fun c => store16 (by omega) (by omega))
    (fun hc lo hi h1 h2 h3 h4 hv hv' => hn1 (ha1.1 hc)
      (compact_of_high_byte (.inr rfl) h1 h2 h3 h4 hv hv')) s s1 _ (by simp) (hs0 ▸ hs) e1
  obtain ⟨t2, h2⟩ := q2ReadField_staysAhead (toInt_range _) (fun c => store16 (by omega) (by omega))
    (fun hc lo hi hlo hlo' hhi hhi' hv hv' => hn2 (ha2.1 hc)
      (by rw [hv']; exact Int.mul_tmod_left hi 256)) s1 s2 _ (by simp) h1 e2
  obtain ⟨t3, h3⟩ := StaysAhead.ite (fun _ => staysAhead_map_short _ _ _) s2 s3 _ (by simp) h2 e3
  obtain ⟨t4, h4⟩ := q2ReadField_staysAhead hr.forwardmove (fun c => store32)
    (fun hc lo hi hlo hlo' hhi hhi' hv hv' => hnf (haf.1 hc)
      (compact_of_high_byte (.inl rfl) hlo hlo' hhi hhi' hv hv')) s3 s4 _ (by simp) h3 e4
  obtain ⟨t5, h5⟩ := q2ReadField_staysAhead hr.sidemove (fun c => store32)
    (fun hc lo hi hlo hlo' hhi hhi' hv hv' => hns (has.1 hc)
      (compact_of_high_byte (.inl rfl) hlo hlo' hhi hhi' hv hv')) s4 s5 _ (by simp) h4 e5
  obtain ⟨t6, h6⟩ := q2ReadField_staysAhead hr.upmove (fun c => store32)
    (fun hc lo hi hlo hlo' hhi hhi' hv hv' => hnu (hau.1 hc)
      (compact_of_high_byte (.inl rfl) hlo hlo' hhi hhi' hv hv')) s5 s6 _ (by simp) h5 e6
  have t7 : s7 = s6 := by
    rw [if_neg (not_not.2 h)] at e7
    exact (Prod.mk.inj (some.inj e7)).2.symm
  obtain ⟨t8, h8⟩ := StaysAhead.ite (fun _ => staysAhead_map_byte _ _ _) s7 s8 _ (by simp) (t7 ▸ h6) e8
  obtain ⟨t9, h9⟩ := staysAhead_byte _ _ s8 s9 _ (by simp) h8 e9
  obtain ⟨t10, -⟩ := staysAhead_byte _ _ s9 s10 _ (by simp) h9 e10
  rw [t10, t9, t8, t7, t6, t5, t4, t3, t2, t1, hs0, q2Bytes_of_no_byte h, q2Fields]
  simp only [← MsgState.skip_add, length_append, length_byteBytes]
  congr 1
  omega

/-! ## The round trip -/

/-- Some changed field of the command is sent in one byte, or the buttons changed. -/
def R1q2ByteSent (old cmd : Usercmd) : Prop :=
  cmd.buttons ≠ old.buttons ∨
  cmd.angles 0 ≠ old.angles 0 ∧ Compact 64 (cmd.angles 0).toInt ∨
  cmd.angles 1 ≠ old.angles 1 ∧ (cmd.angles 1).toInt.tmod 256 = 0 ∨
  cmd.forwardmove ≠ old.forwardmove ∧ Compact 5 cmd.forwardmove.toInt ∨
  cmd.sidemove ≠ old.sidemove ∧ Compact 5 cmd.sidemove.toInt ∨
  cmd.upmove ≠ old.upmove ∧ Compact 5 cmd.upmove.toInt

theorem q2Bits_buttons_iff (old cmd : Usercmd) :
    q2Bits true old cmd &&& q2cmButtons ≠ 0 ↔ R1q2ByteSent old cmd := by
  obtain ⟨h1, h2, hf, hs, hu⟩ := r1q2Buttons_iff old cmd
  have hb := (q2ChangeBits_iff old cmd).2.2.2.2.2
  have hbits : q2Bits true old cmd &&& q2cmButtons = 0 ↔ _ := orIf_and_eq_zero
  have hflag : q2cmButtons &&& q2cmButtons ≠ 0 := by decide
  unfold R1q2ByteSent
  rw [← h1, ← h2, ← hf, ← hs, ← hu, ← hb, ne_eq, hbits]
  constructor
  · intro h
    by_contra hn
    simp only [not_or, not_not] at hn
    obtain ⟨hc, h1, h2, hf, hs, hu⟩ := hn
    exact h ⟨fun hm => absurd (compactFlags_eq_zero.2 ⟨h1, h2, hf, hs, hu⟩) hm.2, hc⟩
  · rintro h ⟨hm, hc⟩
    have hz := compactFlags_eq_zero.1 (not_not.1 fun hne => hflag (hm ⟨rfl, hne⟩))
    obtain ⟨h1, h2, hf, hs, hu⟩ := hz
    rcases h with h | h | h | h | h | h
    · exact h hc
    · exact h h1
    · exact h h2
    · exact h hf
    · exact h hs
    · exact h hu

/-- The buffers of one setting of the primitive flags. -/
def primSink (flags : QByte) : Sink Sizebuf QByte :=
  sink.restrict (fun buf => buf.prim.flags = flags) fun _ _ h => h

/-- The read states of one setting of the primitive flags. -/
def primSource (flags : QByte) : Source MsgState QByte :=
  source.restrict (fun st => st.msgReadmsg.prim.flags = flags) fun st n h =>
    (congrArg (fun buf => buf.prim.flags) (msgReadmsg_skip st n)).trans h

/-- `flags & NPQ2_R1Q2_UCMD`. -/
def isR1q2 (flags : QByte) : Bool := decide (flags &&& npq2R1q2Ucmd ≠ 0)

/-- **The delta of `cmd` comes back**: the writer appends some bytes, wherever they fit, and the
reader, wherever it meets these bytes, takes exactly them and returns `cmd`. -/
def Q2RoundTrip (flags : QByte) (old cmd : Usercmd) : Prop :=
  ∃ xs move, (primSink flags).Emits (msgQ2WriteDeltaUsercmd old cmd) xs () ∧
    (primSource flags).Takes (msgQ2ReadDeltaUsercmd old) xs move ∧
    Q2Agrees (isR1q2 flags) cmd move

theorem msgQ2WriteDeltaUsercmd_emits (flags : QByte) (old cmd : Usercmd) :
    (primSink flags).Emits (msgQ2WriteDeltaUsercmd old cmd) (q2Bytes (isR1q2 flags) old cmd) () := by
  refine Sink.Emits.get_bind fun buf hbuf => ?_
  rw [hbuf.1]
  exact (q2Write_emits _ old cmd).restrict

theorem msgQ2ReadDeltaUsercmd_run (old : Usercmd) (h : st.msgReadmsg.prim.flags = flags) :
    (msgQ2ReadDeltaUsercmd old).run st = (q2Read (isR1q2 flags) old).run st := by
  rw [isR1q2, ← h, msgQ2ReadDeltaUsercmd, StateT.run_bind, StateT.run_get]
  exact Option.bind_some ..

/-- There is a place to write to and to read from, whatever the flags. -/
theorem exists_room (flags : QByte) (n : ℕ) : ∃ buf, (primSink flags).room buf n :=
  ⟨{ bufferOf [] n with prim := ⟨0, 0, flags⟩ }, rfl, by simp [sink, bufferOf]⟩

theorem exists_primSource (flags : QByte) (xs : List QByte) :
    ∃ st, (primSource flags).ahead st xs :=
  ⟨⟨{ bufferOf xs 0 with prim := ⟨0, 0, flags⟩ }, bufferOf [] 0, .netMessage, false⟩, rfl, rfl, rfl,
    0, rfl, Nat.zero_add _, Mem.slice_blit_self _ 0 xs⟩

/-- The round trip is about what the reader makes of the bytes of the message. -/
theorem q2RoundTrip_iff_takes : Q2RoundTrip flags old cmd ↔
    ∃ move, (primSource flags).Takes (msgQ2ReadDeltaUsercmd old) (q2Bytes (isR1q2 flags) old cmd)
      move ∧ Q2Agrees (isR1q2 flags) cmd move := by
  constructor
  · rintro ⟨xs, move, hw, hr, ha⟩
    -- the writer emits one list
    obtain ⟨buf, hbuf⟩ := exists_room flags (xs.length + (q2Bytes (isR1q2 flags) old cmd).length)
    have e := (hw buf ((primSink flags).room_mono hbuf (Nat.le_add_right _ _))).symm.trans
      (msgQ2WriteDeltaUsercmd_emits flags old cmd buf ((primSink flags).room_mono hbuf (Nat.le_add_left _ _)))
    have e' := congrArg Sizebuf.contents (Prod.mk.inj (some.inj e)).2
    obtain rfl : xs = q2Bytes (isR1q2 flags) old cmd := by
      simpa [primSink, Sink.restrict, sink] using e'
    exact ⟨move, hr, ha⟩
  · rintro ⟨move, hr, ha⟩
    exact ⟨_, move, msgQ2WriteDeltaUsercmd_emits flags old cmd, hr, ha⟩

/-- **Without the second byte nothing comes back.** -/
theorem not_q2RoundTrip (hr : Q2Range cmd)
    (hf : isR1q2 flags = true) (h : ¬R1q2ByteSent old cmd) : ¬Q2RoundTrip flags old cmd := by
  intro hrt
  obtain ⟨move, htakes, ha⟩ := q2RoundTrip_iff_takes.1 hrt
  rw [hf] at htakes ha
  have hbits : q2Bits true old cmd &&& q2cmButtons = 0 :=
    not_not.1 (mt (q2Bits_buttons_iff old cmd).1 h)
  obtain ⟨st, hst⟩ := exists_primSource flags (q2Bytes true old cmd ++ [0])
  have hrun := htakes st [0] hst
  rw [msgQ2ReadDeltaUsercmd_run old hst.1, hf] at hrun
  have e := congrArg (fun s : MsgState => s.msgReadmsg.currentbit)
    (q2Read_of_no_byte hbits hr ha hst.2 hrun)
  change ((source.skip st _).msgReadmsg.currentbit) = _ at e
  simp only [source, msgReadmsg_skip] at e
  omega

/-- What the reader returns when the second byte is in place. -/
theorem q2RoundTrip_iff_agrees (hr : Q2Range cmd) (hbyte : isR1q2 flags = true → R1q2ByteSent old cmd) :
    Q2RoundTrip flags old cmd ↔
      Q2Agrees (isR1q2 flags) cmd (q2Decoded (isR1q2 flags) old cmd) := by
  have hbyte' : isR1q2 flags = true → q2Bits (isR1q2 flags) old cmd &&& q2cmButtons ≠ 0 := by
    intro hf
    rw [hf]
    exact (q2Bits_buttons_iff old cmd).2 (hbyte hf)
  have htakes : (primSource flags).Takes (msgQ2ReadDeltaUsercmd old)
      (q2Bytes (isR1q2 flags) old cmd) (q2Decoded (isR1q2 flags) old cmd) := by
    intro st ys hst
    rw [msgQ2ReadDeltaUsercmd_run old hst.1]
    exact q2Read_takes hr hbyte' st ys hst.2
  rw [q2RoundTrip_iff_takes]
  refine ⟨?_, fun ha => ⟨_, htakes, ha⟩⟩
  rintro ⟨move, hm, ha⟩
  obtain ⟨st, hst⟩ := exists_primSource flags (q2Bytes (isR1q2 flags) old cmd ++ [])
  have e := (hm st [] hst).symm.trans (htakes st [] hst)
  rwa [(Prod.mk.inj (some.inj e)).1] at ha

theorem q2Msec_range (m : ℚ) : 0 ≤ q2Msec m ∧ q2Msec m ≤ 250 := by
  unfold q2Msec
  split
  · rename_i h0
    split
    · rename_i h1
      exact ⟨Int.floor_nonneg.2 h0, Int.lt_add_one_iff.1 (Int.floor_lt.2 (by push_cast; linarith))⟩
    · norm_num
  · norm_num

theorem q2Msec_eq_iff (m : ℚ) : (((BitVec.ofInt 8 (q2Msec m)).toNat : Int) : ℚ) = m ↔
    ∃ n : ℕ, n ≤ 250 ∧ m = n := by
  obtain ⟨h0, h1⟩ := q2Msec_range m
  have e : (((BitVec.ofInt 8 (q2Msec m)).toNat : ℕ) : Int) = q2Msec m := by
    rw [toNat_ofInt]
    omega
  rw [e]
  constructor
  · intro h
    refine ⟨(q2Msec m).toNat, by omega, ?_⟩
    exact h.symm.trans (by exact_mod_cast (Int.toNat_of_nonneg h0).symm)
  · rintro ⟨n, hn, rfl⟩
    have hn' : (n : ℚ) ≤ 250 := by exact_mod_cast hn
    unfold q2Msec
    rw [if_pos (Nat.cast_nonneg n)]
    split
    · rw [Int.floor_natCast]
      rfl
    · have : (n : ℚ) = 250 := le_antisymm hn' (not_lt.1 ‹_›)
      rw [this]
      norm_num

theorem lightlevel_eq_iff (x : BitVec 32) :
    BitVec.ofInt 32 (BitVec.ofInt 8 x.toInt).toNat = x ↔ x.toNat < 2 ^ 8 := by
  have e : (BitVec.ofInt 32 ((BitVec.ofInt 8 x.toInt).toNat : Int)).toNat = x.toNat % 2 ^ 8 := by
    have := BitVec.toInt_eq_toNat_cond x
    have := x.isLt
    rw [ofInt_natCast, toNat_ofNat, toNat_ofInt]
    split at * <;> omega
  refine ⟨fun h => ?_, fun h => eq_of_toNat_eq (by rw [e]; omega)⟩
  rw [← h, e]
  omega

/-- What the deltas carry: whole milliseconds up to 250 and a light level of a byte; in the R1Q2
form also the second byte has to be sent, and to hold the buttons, which it does when the pitch
changed. -/
def Q2Carried (r1q2 : Bool) (old cmd : Usercmd) : Prop :=
  (∃ n : ℕ, n ≤ 250 ∧ cmd.msec = n) ∧ cmd.lightlevel.toNat < 2 ^ 8 ∧
    (r1q2 = true → R1q2ByteSent old cmd ∧
      (cmd.angles 0 ≠ old.angles 0 ∨ cmd.buttons &&& (1 ||| 2 ||| 128) = 0))

theorem q2Agrees_decoded_iff (old cmd : Usercmd) :
    Q2Agrees r1q2 cmd (q2Decoded r1q2 old cmd) ↔
      (∃ n : ℕ, n ≤ 250 ∧ cmd.msec = n) ∧ cmd.lightlevel.toNat < 2 ^ 8 ∧
      (r1q2 = true → cmd.angles 0 ≠ old.angles 0 ∨ cmd.buttons &&& (1 ||| 2 ||| 128) = 0) := by
  rw [← q2Msec_eq_iff, ← lightlevel_eq_iff]
  constructor
  · intro h
    refine ⟨h.msec, h.lightlevel, ?_⟩
    rintro rfl
    have hb := h.buttons
    by_cases hc : cmd.angles 0 ≠ old.angles 0
    · exact .inl hc
    · rw [q2Decoded, if_pos rfl, if_neg hc, if_pos rfl] at hb
      exact .inr hb.symm
  · rintro ⟨hm, hl, hb⟩
    refine ⟨rfl, rfl, rfl, rfl, ?_, rfl, hm, hl⟩
    cases r1q2 with
    | false => rfl
    | true =>
      rw [q2Decoded, if_pos rfl, if_pos rfl]
      split
      · rfl
      · exact ((hb rfl).resolve_left ‹_›).symm

/-- **When the delta of a user command comes back.** -/
theorem msgQ2DeltaUsercmd_roundTrip_iff {flags : QByte} {old cmd : Usercmd} (hr : Q2Range cmd) :
    Q2RoundTrip flags old cmd ↔ Q2Carried (isR1q2 flags) old cmd := by
  unfold Q2Carried
  by_cases hbyte : isR1q2 flags = true → R1q2ByteSent old cmd
  · rw [q2RoundTrip_iff_agrees hr hbyte, q2Agrees_decoded_iff]
    exact ⟨fun ⟨hm, hl, hb⟩ => ⟨hm, hl, fun hf => ⟨hbyte hf, hb hf⟩⟩,
      fun ⟨hm, hl, hb⟩ => ⟨hm, hl, fun hf => (hb hf).2⟩⟩
  · rw [Classical.not_imp] at hbyte
    exact ⟨fun h => absurd h (not_q2RoundTrip hr hbyte.1 hbyte.2),
      fun h => absurd (h.2.2 hbyte.1).1 hbyte.2⟩

/-- A command with nothing but a time. -/
def idleUsercmd (msec : ℚ) : Usercmd :=
  { angles := 0, forwardmove := 0, sidemove := 0, upmove := 0, impulse := 0, lightlevel := 0,
    msec := msec, buttons := 0, weapon := 0, servertime := 0, cursorScreen := 0, cursorStart := 0,
    cursorImpact := 0, cursorEntitynumber := 0, vr := fun _ => ⟨0, 0, 0, 0, 0, 0⟩ }

/-- A turn of the head and a press of the attack button, over an R1Q2 connection. -/
theorem msgQ2DeltaUsercmd_roundTrip_turn :
    Q2RoundTrip npq2R1q2Ucmd (idleUsercmd 0)
      { idleUsercmd 10 with angles := ![128, 77, 0], buttons := 1 } := by
  refine (msgQ2DeltaUsercmd_roundTrip_iff ⟨by decide, by decide, by decide, by decide,
    by decide⟩).2 ⟨⟨10, by omega, rfl⟩, by decide, fun _ => ⟨.inr (.inl ?_), .inl (by decide)⟩⟩
  exact ⟨by decide, by decide⟩

/-- **An idle command does not come back over an R1Q2 connection**: the reader takes a second byte
that the writer did not send. -/
theorem idle_not_q2RoundTrip :
    Q2Range (idleUsercmd 10) ∧ (idleUsercmd 10).msec ≤ 250 ∧
      ¬Q2RoundTrip npq2R1q2Ucmd (idleUsercmd 0) (idleUsercmd 10) := by
  have hr : Q2Range (idleUsercmd 10) := ⟨by decide, by decide, by decide, by decide, by decide⟩
  refine ⟨hr, by norm_num [idleUsercmd], not_q2RoundTrip hr rfl ?_⟩
  simp [R1q2ByteSent, idleUsercmd]

end FteQuake
