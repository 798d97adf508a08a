import FteQuake.Lib.BinaryFloat
import FteQuake.Common.Usercmd
import FteQuake.Common.VarInt

/-!
# The FTE delta of user commands

`MSGFTE_WriteDeltaUsercmd` and `MSGFTE_ReadDeltaUsercmd` of `common.c`: a word of change bits, the
time since the old command, and the changed fields, with the VR devices as deltas of their own. The
writer is that of a release build, which never sets `UC_MSEC_DEBUG`.

Writer and reader take the same steps (`fteDelta_roundTrip`), so what comes back is the old command
with the fields that were sent (`fteDecoded`). It is the new command except where the change bits
leave a change out (`FteCarried`):

* `UC_WEAPON` is set when the buttons change, not when the weapon does;
* `MSG_CompareVR` looks at no weapon, and compares an origin with an angle;
* floats are compared by `!=`, which takes the two zeros for equal;
* a cursor outside the screen does not fit in the two shorts it is sent as.

Floats are bit patterns. The cursor goes through single and double precision arithmetic, of which
`screenToShort` and `shortToScreen` are the parts that are used.
-/

namespace FteQuake

open StreamProgram BitFlags BinaryFloat MsgState Sizebuf RoundTrip

/-! ## The flags -/

def ucAngle1 : BitVec 32 := 1 <<< 0
def ucForward : BitVec 32 := 1 <<< 3
def ucRight : BitVec 32 := 1 <<< 4
def ucButtons : BitVec 32 := 1 <<< 5
def ucImpulse : BitVec 32 := 1 <<< 6
def ucUp : BitVec 32 := 1 <<< 7
def ucAbsang : BitVec 32 := 1 <<< 8
def ucBigmoves : BitVec 32 := 1 <<< 9
def ucWeapon : BitVec 32 := 1 <<< 10
def ucCursorflds : BitVec 32 := 1 <<< 11
def ucLightlev : BitVec 32 := 1 <<< 12
def ucVrHead : BitVec 32 := 1 <<< 13
def ucVrRight : BitVec 32 := 1 <<< 14
def ucVrLeft : BitVec 32 := 1 <<< 15
def ucMsecDebug : BitVec 32 := 1 <<< 18

/-- `UC_UNSUPPORTED`. -/
def ucUnsupported : BitVec 32 :=
  ~~~(ucAngle1 ||| ucAngle1 <<< 1 ||| ucAngle1 <<< 2 ||| ucForward ||| ucRight ||| ucButtons |||
    ucImpulse ||| ucUp ||| ucAbsang ||| ucBigmoves ||| ucWeapon ||| ucCursorflds ||| ucLightlev |||
    ucVrHead ||| ucVrRight ||| ucVrLeft ||| ucMsecDebug)

def ucVrStatus : BitVec 32 := 1 <<< 0
def ucVrAng : BitVec 32 := 1 <<< 1
def ucVrAvel : BitVec 32 := 1 <<< 2
def ucVrOrg : BitVec 32 := 1 <<< 3
def ucVrVel : BitVec 32 := 1 <<< 4
def ucVrWeapon : BitVec 32 := 1 <<< 5

def vrdevLeft : Fin 3 := 0
def vrdevRight : Fin 3 := 1
def vrdevHead : Fin 3 := 2

/-! ## Three components -/

/-- `x[0] != y[0] || x[1] != y[1] || x[2] != y[2]` of two vectors of floats. -/
def VecDiffer (x y : Fin 3 → BitVec 32) : Prop :=
  Differ (x 0) (y 0) ∨ Differ (x 1) (y 1) ∨ Differ (x 2) (y 2)

instance (x y : Fin 3 → BitVec 32) : Decidable (VecDiffer x y) :=
  inferInstanceAs (Decidable (_ ∨ _ ∨ _))

/-- The same of two vectors of shorts. -/
def AnglesDiffer (x y : Fin 3 → BitVec 16) : Prop := x 0 ≠ y 0 ∨ x 1 ≠ y 1 ∨ x 2 ≠ y 2

instance (x y : Fin 3 → BitVec 16) : Decidable (AnglesDiffer x y) :=
  inferInstanceAs (Decidable (_ ∨ _ ∨ _))

/-! ## VR devices -/

/-- `MSG_CompareVR`. The origin's first component is compared with an angle. -/
def msgCompareVR (old cmd : VrDevInfo) : Prop :=
  cmd.status ≠ old.status ∨
  AnglesDiffer cmd.angles old.angles ∨
  AnglesDiffer cmd.avelocity old.avelocity ∨
  (Differ (cmd.origin 0) (ofRat (old.angles 0).toInt) ∨ Differ (cmd.origin 1) (old.origin 1) ∨
    Differ (cmd.origin 2) (old.origin 2)) ∨
  VecDiffer cmd.velocity old.velocity

instance (old cmd : VrDevInfo) : Decidable (msgCompareVR old cmd) :=
  inferInstanceAs (Decidable (_ ∨ _ ∨ _ ∨ _ ∨ _))

/-- The change bits of a device. -/
def vrBits (old cmd : VrDevInfo) : BitVec 32 :=
  0 |> orIf (cmd.status ≠ old.status) ucVrStatus
    |> orIf (AnglesDiffer cmd.angles old.angles) ucVrAng
    |> orIf (AnglesDiffer cmd.avelocity old.avelocity) ucVrAvel
    |> orIf (VecDiffer cmd.origin old.origin) ucVrOrg
    |> orIf (VecDiffer cmd.velocity old.velocity) ucVrVel
    |> orIf (cmd.weapon ≠ old.weapon) ucVrWeapon

/-- `MSG_WriteVR`. -/
def msgWriteVR (old cmd : VrDevInfo) : MsgWriter Unit := do
  let bits := vrBits old cmd
  msgWriteUInt64 (bits.setWidth 64)
  (if bits &&& ucVrStatus ≠ 0 then msgWriteUInt64 (cmd.status.setWidth 64) else pure ())
  (if bits &&& ucVrAng ≠ 0 then writeVec (fun x => msgWriteShort x.toInt) cmd.angles else pure ())
  (if bits &&& ucVrAvel ≠ 0 then writeVec (fun x => msgWriteShort x.toInt) cmd.avelocity
    else pure ())
  (if bits &&& ucVrOrg ≠ 0 then writeVec msgWriteFloat cmd.origin else pure ())
  (if bits &&& ucVrVel ≠ 0 then writeVec msgWriteFloat cmd.velocity else pure ())
  (if bits &&& ucVrWeapon ≠ 0 then msgWriteUInt64 cmd.weapon else pure ())

/-- `MSG_ReadVR`, of a device that holds the old values. -/
def msgReadVR (old : VrDevInfo) : MsgReader VrDevInfo := do
  let bits ← msgReadUInt64
  let status ← (if bits &&& ucVrStatus.setWidth 64 ≠ 0 then BitVec.setWidth 32 <$> msgReadUInt64
    else pure old.status)
  let angles ← (if bits &&& ucVrAng.setWidth 64 ≠ 0 then
    readVec (BitVec.ofInt 16 <$> msgReadShort) else pure old.angles)
  let avelocity ← (if bits &&& ucVrAvel.setWidth 64 ≠ 0 then
    readVec (BitVec.ofInt 16 <$> msgReadShort) else pure old.avelocity)
  let origin ← (if bits &&& ucVrOrg.setWidth 64 ≠ 0 then readVec msgReadFloat else pure old.origin)
  let velocity ← (if bits &&& ucVrVel.setWidth 64 ≠ 0 then readVec msgReadFloat
    else pure old.velocity)
  let weapon ← (if bits &&& ucVrWeapon.setWidth 64 ≠ 0 then msgReadUInt64 else pure old.weapon)
  return ⟨status, angles, avelocity, origin, velocity, weapon⟩

/-! ## The cursor -/

/-- `(int)(cursor_screen * 32767)`; a result that an `int` cannot hold is undefined. -/
def screenToShort (x : BitVec 32) : Option Int :=
  if IsFinite x then
    let t := trunc (roundTo 24 (-149) (val x * 32767))
    if -2 ^ 31 ≤ t ∧ t < 2 ^ 31 then some t else none
  else none

/-- `(float)(c / 32767.0)`. -/
def shortToScreen (c : Int) : BitVec 32 := ofRat (roundTo 53 (-1074) (c / 32767))

def CursorDiffers (old cmd : Usercmd) : Prop :=
  (Differ (cmd.cursorScreen 0) (old.cursorScreen 0) ∨
    Differ (cmd.cursorScreen 1) (old.cursorScreen 1)) ∨
  VecDiffer cmd.cursorStart old.cursorStart ∨ VecDiffer cmd.cursorImpact old.cursorImpact ∨
  cmd.cursorEntitynumber ≠ old.cursorEntitynumber

instance (old cmd : Usercmd) : Decidable (CursorDiffers old cmd) :=
  inferInstanceAs (Decidable (_ ∨ _ ∨ _ ∨ _))

/-- The fields of `UC_CURSORFLDS`. -/
def writeCursor (cmd : Usercmd) : MsgWriter Unit := do
  let x ← StateT.lift (screenToShort (cmd.cursorScreen 0))
  msgWriteShort x
  let y ← StateT.lift (screenToShort (cmd.cursorScreen 1))
  msgWriteShort y
  writeVec msgWriteFloat cmd.cursorStart
  writeVec msgWriteFloat cmd.cursorImpact
  msgWriteEntity cmd.cursorEntitynumber.toNat

def readCursor (cmd : Usercmd) : MsgReader Usercmd := do
  let x ← msgReadShort
  let y ← msgReadShort
  let start ← readVec msgReadFloat
  let impact ← readVec msgReadFloat
  let entity ← msgReadBigEntity
  return { cmd with
    cursorScreen := ![shortToScreen x, shortToScreen y], cursorStart := start,
    cursorImpact := impact, cursorEntitynumber := entity }

/-! ## The command -/

/-- The bits of one angle. -/
def ucAngleBits (i : Fin 3) (old cmd : Usercmd) (bits : BitVec 32) : BitVec 32 :=
  let d := cmd.angles i - old.angles i
  bits |> orIf (d ≠ 0) (ucAngle1 <<< i.val)
    |> orIf (d ≠ 0 ∧ (d.toInt < -128 ∨ d.toInt > 127)) ucAbsang

/-- The bits of one move. -/
def ucMoveBits (flag : BitVec 32) (old new : BitVec 32) (bits : BitVec 32) : BitVec 32 :=
  bits |> orIf (new ≠ old) flag
    |> orIf (new ≠ old ∧ (new.toInt.tmod 5 ≠ 0 ∨ new.toInt > 127 * 5 ∨ new.toInt < -128 * 5))
      ucBigmoves

/-- The change bits of a command. -/
def fteBits (old cmd : Usercmd) : BitVec 32 :=
  0 |> ucAngleBits 0 old cmd |> ucAngleBits 1 old cmd |> ucAngleBits 2 old cmd
    |> ucMoveBits ucForward old.forwardmove cmd.forwardmove
    |> ucMoveBits ucRight old.sidemove cmd.sidemove
    |> ucMoveBits ucUp old.upmove cmd.upmove
    |> orIf (cmd.buttons ≠ old.buttons) ucButtons
    |> orIf (cmd.buttons ≠ old.buttons) ucWeapon
    |> orIf (cmd.impulse ≠ old.impulse) ucImpulse
    |> orIf (cmd.lightlevel ≠ old.lightlevel) ucLightlev
    |> orIf (CursorDiffers old cmd) ucCursorflds
    |> orIf (msgCompareVR (old.vr vrdevHead) (cmd.vr vrdevHead)) ucVrHead
    |> orIf (msgCompareVR (old.vr vrdevRight) (cmd.vr vrdevRight)) ucVrRight
    |> orIf (msgCompareVR (old.vr vrdevLeft) (cmd.vr vrdevLeft)) ucVrLeft

/-- An angle, as a short from the base angle or a byte from the old one. -/
def writeAngle (bits : BitVec 32) (i : Fin 3) (baseangles : Fin 3 → BitVec 16) (old cmd : Usercmd) :
    MsgWriter Unit :=
  if bits &&& ucAngle1 <<< i.val ≠ 0 then
    if bits &&& ucAbsang ≠ 0 then msgWriteShort ((cmd.angles i).toInt - (baseangles i).toInt)
    else msgWriteChar ((cmd.angles i).toInt - (old.angles i).toInt)
  else pure ()

def readAngle (bits : BitVec 32) (i : Fin 3) (old : Usercmd) : MsgReader (BitVec 16) :=
  if bits &&& ucAngle1 <<< i.val ≠ 0 then
    if bits &&& ucAbsang ≠ 0 then BitVec.ofInt 16 <$> msgReadShort
    else (fun c => BitVec.ofInt 16 ((old.angles i).toInt + c)) <$> msgReadChar
  else pure (old.angles i)

/-- A move, in full or as a fifth in a byte. -/
def writeMove (bits flag : BitVec 32) (new : BitVec 32) : MsgWriter Unit :=
  if bits &&& flag ≠ 0 then
    if bits &&& ucBigmoves ≠ 0 then msgWriteInt64 (new.signExtend 64)
    else msgWriteChar (new.toInt.tdiv 5)
  else pure ()

def readMove (bits flag : BitVec 32) (old : BitVec 32) : MsgReader (BitVec 32) :=
  if bits &&& flag ≠ 0 then
    if bits &&& ucBigmoves ≠ 0 then BitVec.setWidth 32 <$> msgReadInt64
    else (fun c => BitVec.ofInt 32 (c * 5)) <$> msgReadChar
  else pure old

/-- `MSGFTE_WriteDeltaUsercmd`. -/
def msgFteWriteDeltaUsercmd (baseangles : Fin 3 → BitVec 16) (old cmd : Usercmd) :
    MsgWriter Unit := do
  let bits := fteBits old cmd
  msgWriteUInt64 (bits.setWidth 64)
  msgWriteUInt64 ((cmd.servertime - old.servertime).setWidth 64)
  (if bits &&& ucMsecDebug ≠ 0 then msgWriteUInt64 (BitVec.ofInt 64 (trunc cmd.msec)) else pure ())
  writeAngle bits 0 baseangles old cmd
  writeAngle bits 1 baseangles old cmd
  writeAngle bits 2 baseangles old cmd
  writeMove bits ucForward cmd.forwardmove
  writeMove bits ucRight cmd.sidemove
  writeMove bits ucUp cmd.upmove
  (if bits &&& ucButtons ≠ 0 then msgWriteUInt64 cmd.buttons else pure ())
  (if bits &&& ucImpulse ≠ 0 then msgWriteUInt64 cmd.impulse else pure ())
  (if bits &&& ucWeapon ≠ 0 then msgWriteUInt64 cmd.weapon else pure ())
  (if bits &&& ucCursorflds ≠ 0 then writeCursor cmd else pure ())
  (if bits &&& ucLightlev ≠ 0 then msgWriteUInt64 (cmd.lightlevel.setWidth 64) else pure ())
  (if bits &&& ucVrHead ≠ 0 then msgWriteVR (old.vr vrdevHead) (cmd.vr vrdevHead) else pure ())
  (if bits &&& ucVrRight ≠ 0 then msgWriteVR (old.vr vrdevRight) (cmd.vr vrdevRight) else pure ())
  (if bits &&& ucVrLeft ≠ 0 then msgWriteVR (old.vr vrdevLeft) (cmd.vr vrdevLeft) else pure ())

/-- The fields of a command after the change bits, read over `old`. -/
def readFields (bits : BitVec 32) (old : Usercmd) : MsgReader Usercmd := do
  let time ← msgReadUInt64
  let msec ← (if bits &&& ucMsecDebug ≠ 0 then
    (fun x : BitVec 64 => roundTo 24 (-149) x.toNat) <$> msgReadUInt64 else pure 0)
  let angle0 ← readAngle bits 0 old
  let angle1 ← readAngle bits 1 old
  let angle2 ← readAngle bits 2 old
  let forwardmove ← readMove bits ucForward old.forwardmove
  let sidemove ← readMove bits ucRight old.sidemove
  let upmove ← readMove bits ucUp old.upmove
  let buttons ← (if bits &&& ucButtons ≠ 0 then msgReadUInt64 else pure old.buttons)
  let impulse ← (if bits &&& ucImpulse ≠ 0 then msgReadUInt64 else pure old.impulse)
  let weapon ← (if bits &&& ucWeapon ≠ 0 then msgReadUInt64 else pure old.weapon)
  let cmd ← (if bits &&& ucCursorflds ≠ 0 then readCursor old else pure old)
  let lightlevel ← (if bits &&& ucLightlev ≠ 0 then BitVec.setWidth 32 <$> msgReadUInt64
    else pure old.lightlevel)
  let head ← (if bits &&& ucVrHead ≠ 0 then msgReadVR (old.vr vrdevHead)
    else pure (old.vr vrdevHead))
  let right ← (if bits &&& ucVrRight ≠ 0 then msgReadVR (old.vr vrdevRight)
    else pure (old.vr vrdevRight))
  let left ← (if bits &&& ucVrLeft ≠ 0 then msgReadVR (old.vr vrdevLeft)
    else pure (old.vr vrdevLeft))
  return { cmd with
    servertime := old.servertime + time.setWidth 32, msec := msec
    angles := ![angle0, angle1, angle2], forwardmove := forwardmove, sidemove := sidemove
    upmove := upmove, buttons := buttons, impulse := impulse, weapon := weapon
    lightlevel := lightlevel, vr := ![left, right, head] }

/-- `MSGFTE_ReadDeltaUsercmd`; `cmd` is what the destination held. -/
def msgFteReadDeltaUsercmd (old cmd : Usercmd) : MsgReader Usercmd := do
  let bits := (← msgReadUInt64).setWidth 32
  if bits &&& ucUnsupported ≠ 0 then
    modify fun st => { st with msgBadread := true }
    return cmd
  else readFields bits old

/-! ## What the bits say -/

theorem sub_eq_zero_iff {x y : BitVec 16} : x - y = 0#16 ↔ x = y := by
  refine ⟨fun h => ?_, fun h => by rw [h, BitVec.sub_self]⟩
  have e := BitVec.sub_add_cancel x y
  rwa [h, BitVec.zero_add, eq_comm] at e

variable {k : Int} {cmd old : Usercmd} {q : ℚ}

section

attribute [local simp] fteBits ucAngleBits ucMoveBits ucAngle1 ucForward ucRight ucButtons ucImpulse ucUp ucAbsang
  ucBigmoves ucWeapon ucCursorflds ucLightlev ucVrHead ucVrRight ucVrLeft

/-- The bits of the single fields. -/
theorem fteBits_iff (old cmd : Usercmd) :
    (∀ i : Fin 3, fteBits old cmd &&& ucAngle1 <<< i.val ≠ 0 ↔ cmd.angles i ≠ old.angles i) ∧
    (fteBits old cmd &&& ucForward ≠ 0 ↔ cmd.forwardmove ≠ old.forwardmove) ∧
    (fteBits old cmd &&& ucRight ≠ 0 ↔ cmd.sidemove ≠ old.sidemove) ∧
    (fteBits old cmd &&& ucUp ≠ 0 ↔ cmd.upmove ≠ old.upmove) ∧
    (fteBits old cmd &&& ucButtons ≠ 0 ↔ cmd.buttons ≠ old.buttons) ∧
    (fteBits old cmd &&& ucImpulse ≠ 0 ↔ cmd.impulse ≠ old.impulse) ∧
    (fteBits old cmd &&& ucWeapon ≠ 0 ↔ cmd.buttons ≠ old.buttons) ∧
    (fteBits old cmd &&& ucCursorflds ≠ 0 ↔ CursorDiffers old cmd) ∧
    (fteBits old cmd &&& ucLightlev ≠ 0 ↔ cmd.lightlevel ≠ old.lightlevel) ∧
    (fteBits old cmd &&& ucVrHead ≠ 0 ↔
      msgCompareVR (old.vr vrdevHead) (cmd.vr vrdevHead)) ∧
    (fteBits old cmd &&& ucVrRight ≠ 0 ↔
      msgCompareVR (old.vr vrdevRight) (cmd.vr vrdevRight)) ∧
    (fteBits old cmd &&& ucVrLeft ≠ 0 ↔
      msgCompareVR (old.vr vrdevLeft) (cmd.vr vrdevLeft)) := by
  rw [Fin.forall_fin_succ, Fin.forall_fin_two]
  simp [sub_eq_zero_iff]

/-- An angle that is sent in a byte is near the old one. -/
theorem fteBits_absang (h : fteBits old cmd &&& ucAbsang = 0) (i : Fin 3) (hi : cmd.angles i ≠ old.angles i) :
    -128 ≤ (cmd.angles i - old.angles i).toInt ∧ (cmd.angles i - old.angles i).toInt ≤ 127 := by
  have hall : ∀ i, cmd.angles i ≠ old.angles i → -128 ≤ (cmd.angles i - old.angles i).toInt ∧
        (cmd.angles i - old.angles i).toInt ≤ 127 := by
    rw [Fin.forall_fin_succ, Fin.forall_fin_two]
    revert h
    simp [sub_eq_zero_iff]
    exact fun h2 h1 h0 => ⟨h0, h1, h2⟩
  exact hall i hi

/-- A move that is sent in a byte is five times a byte. -/
def Fifth (x : BitVec 32) : Prop := x.toInt.tmod 5 = 0 ∧ x.toInt ≤ 127 * 5 ∧ -128 * 5 ≤ x.toInt

theorem fteBits_bigmoves (h : fteBits old cmd &&& ucBigmoves = 0) :
    (cmd.forwardmove ≠ old.forwardmove → Fifth cmd.forwardmove) ∧
    (cmd.sidemove ≠ old.sidemove → Fifth cmd.sidemove) ∧
    (cmd.upmove ≠ old.upmove → Fifth cmd.upmove) := by
  revert h
  simp [Fifth]
  exact fun hu hs hf => ⟨hf, hs, hu⟩

/-- The bits that are never set. -/
theorem fteBits_unset (old cmd : Usercmd) :
    fteBits old cmd &&& ucMsecDebug = 0 ∧ fteBits old cmd &&& ucUnsupported = 0 := by
  simp [ucMsecDebug, ucUnsupported]

end

/-- The bits of a device. -/
theorem vrBits_iff (old cmd : VrDevInfo) :
    (vrBits old cmd &&& ucVrStatus ≠ 0 ↔ cmd.status ≠ old.status) ∧
    (vrBits old cmd &&& ucVrAng ≠ 0 ↔ AnglesDiffer cmd.angles old.angles) ∧
    (vrBits old cmd &&& ucVrAvel ≠ 0 ↔ AnglesDiffer cmd.avelocity old.avelocity) ∧
    (vrBits old cmd &&& ucVrOrg ≠ 0 ↔ VecDiffer cmd.origin old.origin) ∧
    (vrBits old cmd &&& ucVrVel ≠ 0 ↔ VecDiffer cmd.velocity old.velocity) ∧
    (vrBits old cmd &&& ucVrWeapon ≠ 0 ↔ cmd.weapon ≠ old.weapon) := by
  simp [vrBits, ucVrStatus, ucVrAng, ucVrAvel, ucVrOrg, ucVrVel, ucVrWeapon]

/-! ## The pieces come back -/

/-- An `unsigned int` that is sent with `MSG_WriteUInt64`. -/
theorem uint_roundTrip (x : BitVec 32) :
    RoundTrip (msgWriteUInt64 (x.setWidth 64)) (BitVec.setWidth 32 <$> msgReadUInt64) x := by
  have e := (msgUInt64_roundTrip (x.setWidth 64)).map (BitVec.setWidth 32)
  rwa [BitVec.setWidth_setWidth_of_le _ (by omega), BitVec.setWidth_eq] at e

/-- What comes back of a device. -/
def vrDecoded (old cmd : VrDevInfo) : VrDevInfo :=
  { status := cmd.status
    angles := cmd.angles
    avelocity := cmd.avelocity
    origin := if VecDiffer cmd.origin old.origin then cmd.origin else old.origin
    velocity := if VecDiffer cmd.velocity old.velocity then cmd.velocity else old.velocity
    weapon := cmd.weapon }

theorem eq_of_not_anglesDiffer {x y : Fin 3 → BitVec 16} (h : ¬AnglesDiffer x y) : y = x := by
  simp only [AnglesDiffer, not_or, not_not] at h
  rw [← vec3_eta x, ← vec3_eta y, h.1, h.2.1, h.2.2]

/-- **The delta of a device comes back.** -/
theorem msgVR_roundTrip (old cmd : VrDevInfo) :
    RoundTrip (msgWriteVR old cmd) (msgReadVR old) (vrDecoded old cmd) := by
  obtain ⟨hs, ha, hav, ho, hv, hw⟩ := vrBits_iff old cmd
  unfold msgWriteVR msgReadVR
  refine (msgUInt64_roundTrip _).bind ?_
  have h64 : ∀ f : BitVec 32, ((vrBits old cmd).setWidth 64 &&& f.setWidth 64 ≠ 0 ↔
      vrBits old cmd &&& f ≠ 0) := setWidth_and_ne_zero (by omega) _
  simp only [h64, hs, ha, hav, ho, hv, hw]
  refine (field (fun _ => uint_roundTrip cmd.status) fun h => (not_not.1 h).symm).bind ?_
  refine (field (fun _ => writeVec_roundTrip fun i => short_roundTrip (cmd.angles i))
    eq_of_not_anglesDiffer).bind ?_
  refine (field (fun _ => writeVec_roundTrip fun i => short_roundTrip (cmd.avelocity i))
    eq_of_not_anglesDiffer).bind ?_
  refine (ite fun _ => writeVec_roundTrip fun i => float_roundTrip (cmd.origin i)).bind ?_
  refine (ite fun _ =>
    writeVec_roundTrip fun i => float_roundTrip (cmd.velocity i)).bind ?_
  exact (field (fun _ => msgUInt64_roundTrip cmd.weapon)
    fun h => (not_not.1 h).symm).bind_return _

/-! ### The cursor -/

/-- What comes back of a cursor at `x`. -/
def screenDecoded (x : BitVec 32) : BitVec 32 :=
  shortToScreen (BitVec.ofInt 16 ((screenToShort x).getD 0)).toInt

/-- The command with the cursor that comes back. -/
def cursorDecoded (old cmd : Usercmd) : Usercmd :=
  { old with
    cursorScreen := ![screenDecoded (cmd.cursorScreen 0), screenDecoded (cmd.cursorScreen 1)]
    cursorStart := cmd.cursorStart
    cursorImpact := cmd.cursorImpact
    cursorEntitynumber := cmd.cursorEntitynumber }

/-- The cursor can be written at all. -/
def CursorWritable (cmd : Usercmd) : Prop :=
  (screenToShort (cmd.cursorScreen 0)).isSome ∧ (screenToShort (cmd.cursorScreen 1)).isSome ∧
    cmd.cursorEntitynumber.toNat ≤ maxEdicts

theorem cursor_roundTrip (old : Usercmd) (h : CursorWritable cmd) :
    RoundTrip (writeCursor cmd) (readCursor old) (cursorDecoded old cmd) := by
  obtain ⟨hx, hy, he⟩ := h
  obtain ⟨x, hx⟩ := Option.isSome_iff_exists.1 hx
  obtain ⟨y, hy⟩ := Option.isSome_iff_exists.1 hy
  unfold writeCursor readCursor cursorDecoded screenDecoded
  rw [hx, hy]
  refine (msgShort_roundTrip x).bind ?_
  refine (msgShort_roundTrip y).bind ?_
  refine (writeVec_roundTrip fun i => float_roundTrip (cmd.cursorStart i)).bind ?_
  refine (writeVec_roundTrip fun i => float_roundTrip (cmd.cursorImpact i)).bind ?_
  have e : RoundTrip (msgWriteEntity cmd.cursorEntitynumber.toNat) msgReadBigEntity
      cmd.cursorEntitynumber := by
    refine ⟨_, msgWriteEntity_emits he, ?_⟩
    have e := msgReadBigEntity_entityBytes he
    rwa [BitVec.ofNat_toNat, BitVec.setWidth_eq] at e
  exact e.bind_return _

/-! ### The command -/

theorem ofInt_toInt_sub (x y : BitVec 16) :
    BitVec.ofInt 8 (x.toInt - y.toInt) = BitVec.ofInt 8 (x - y).toInt := by
  apply BitVec.eq_of_toNat_eq
  rw [BitVec.toNat_ofInt, BitVec.toNat_ofInt, BitVec.toInt_sub]
  have := Int.bmod_def (x.toInt - y.toInt) (2 ^ 16)
  split at this <;> omega

theorem angle_roundTrip (old cmd : Usercmd) (i : Fin 3) :
    RoundTrip (writeAngle (fteBits old cmd) i (fun _ => 0) old cmd)
      (readAngle (fteBits old cmd) i old) (cmd.angles i) := by
  have hi := (fteBits_iff old cmd).1 i
  refine field (fun hsent => cond (fun _ => ?_) fun habs => ?_) fun h =>
    (not_not.1 (mt hi.2 h)).symm
  · rw [show ((cmd.angles i).toInt - (0 : BitVec 16).toInt) = (cmd.angles i).toInt from sub_zero _]
    exact short_roundTrip (cmd.angles i)
  · obtain ⟨hl, hu⟩ := fteBits_absang (not_not.1 habs) i (hi.1 hsent)
    have e := (msgChar_roundTrip hl hu).map fun c => BitVec.ofInt 16 ((old.angles i).toInt + c)
    rw [msgWriteChar, ← ofInt_toInt_sub, BitVec.ofInt_add, BitVec.ofInt_toInt, BitVec.ofInt_toInt,
      BitVec.add_comm, BitVec.sub_add_cancel] at e
    exact e

theorem setWidth_signExtend (x : BitVec 32) : (x.signExtend 64).setWidth 32 = x := by
  ext i hi
  rw [BitVec.getElem_setWidth, BitVec.getLsbD_signExtend, if_pos hi, decide_eq_true (by omega),
    Bool.true_and, BitVec.getLsbD_eq_getElem hi]

theorem move_roundTrip {bits flag old new : BitVec 32} (hflag : bits &&& flag ≠ 0 ↔ new ≠ old)
    (hbig : bits &&& ucBigmoves = 0 → new ≠ old → Fifth new) :
    RoundTrip (writeMove bits flag new) (readMove bits flag old) new := by
  refine field (fun hsent => cond (fun _ => ?_) fun hsmall => ?_) fun h =>
    (not_not.1 (mt hflag.2 h)).symm
  · have e := (msgInt64_roundTrip (new.signExtend 64)).map (BitVec.setWidth 32)
    rwa [setWidth_signExtend] at e
  · obtain ⟨hm, hu, hl⟩ := hbig (not_not.1 hsmall) (hflag.1 hsent)
    have hmul := Int.mul_tdiv_add_tmod new.toInt 5
    have e := (msgChar_roundTrip (c := new.toInt.tdiv 5) (by omega) (by omega)).map
      fun c => BitVec.ofInt 32 (c * 5)
    rwa [show new.toInt.tdiv 5 * 5 = new.toInt by omega, BitVec.ofInt_toInt] at e

/-- What comes back of a command. -/
def fteDecoded (old cmd : Usercmd) : Usercmd :=
  { if CursorDiffers old cmd then cursorDecoded old cmd else old with
    servertime := cmd.servertime
    msec := 0
    angles := cmd.angles
    forwardmove := cmd.forwardmove
    sidemove := cmd.sidemove
    upmove := cmd.upmove
    buttons := cmd.buttons
    impulse := cmd.impulse
    weapon := if cmd.buttons ≠ old.buttons then cmd.weapon else old.weapon
    lightlevel := cmd.lightlevel
    vr := fun i =>
      if msgCompareVR (old.vr i) (cmd.vr i) then vrDecoded (old.vr i) (cmd.vr i) else old.vr i }

/-- **The delta of a command comes back**, when its cursor can be written. -/
theorem fteDelta_roundTrip (junk : Usercmd) (h : CursorDiffers old cmd → CursorWritable cmd) :
    RoundTrip (msgFteWriteDeltaUsercmd (fun _ => 0) old cmd) (msgFteReadDeltaUsercmd old junk)
      (fteDecoded old cmd) := by
  obtain ⟨-, hf, hr, hu, hb, hi, hw, hc, hl, hh, hvr, hvl⟩ := fteBits_iff old cmd
  obtain ⟨hdebug, hunsupported⟩ := fteBits_unset old cmd
  unfold msgFteWriteDeltaUsercmd msgFteReadDeltaUsercmd
  refine (msgUInt64_roundTrip _).bind ?_
  dsimp only
  rw [BitVec.setWidth_setWidth_of_le _ (by omega), BitVec.setWidth_eq,
    if_neg (not_not.2 hunsupported)]
  unfold readFields
  refine (msgUInt64_roundTrip _).bind ?_
  refine (field (fun h => absurd hdebug h) fun _ => rfl).bind ?_
  refine (angle_roundTrip old cmd 0).bind ?_
  refine (angle_roundTrip old cmd 1).bind ?_
  refine (angle_roundTrip old cmd 2).bind ?_
  refine (move_roundTrip hf fun h => (fteBits_bigmoves h).1).bind ?_
  refine (move_roundTrip hr fun h => (fteBits_bigmoves h).2.1).bind ?_
  refine (move_roundTrip hu fun h => (fteBits_bigmoves h).2.2).bind ?_
  simp only [hb, hi, hw, hc, hl, hh, hvr, hvl]
  refine (field (fun _ => msgUInt64_roundTrip cmd.buttons)
    fun h => (not_not.1 h).symm).bind ?_
  refine (field (fun _ => msgUInt64_roundTrip cmd.impulse)
    fun h => (not_not.1 h).symm).bind ?_
  refine (ite fun _ => msgUInt64_roundTrip cmd.weapon).bind ?_
  refine (ite fun hd => cursor_roundTrip old (h hd)).bind ?_
  refine (field (fun _ => uint_roundTrip cmd.lightlevel)
    fun h => (not_not.1 h).symm).bind ?_
  refine (ite fun _ => msgVR_roundTrip _ _).bind ?_
  refine (ite fun _ => msgVR_roundTrip _ _).bind ?_
  convert (ite fun _ => msgVR_roundTrip (old.vr vrdevLeft) (cmd.vr vrdevLeft)).bind_return _
    using 1
  rw [vec3_eta, BitVec.setWidth_setWidth_of_le _ (by omega), BitVec.setWidth_eq, BitVec.add_comm,
    BitVec.sub_add_cancel, fteDecoded]
  congr 1
  funext i
  match i with
  | 0 => rfl
  | 1 => rfl
  | 2 => rfl

/-- A command with a cursor that cannot be written is not sent. -/
theorem writable_of_roundTrip {move junk : Usercmd}
    (h : RoundTrip (msgFteWriteDeltaUsercmd (fun _ => 0) old cmd) (msgFteReadDeltaUsercmd old junk)
      move) (hc : CursorDiffers old cmd) : CursorWritable cmd := by
  obtain ⟨xs, hw, -⟩ := h
  have hrun := hw (bufferOf [] xs.length) (by simp [sink, bufferOf])
  unfold msgFteWriteDeltaUsercmd at hrun
  iterate 12 obtain ⟨_, _, -, hrun⟩ := run_bind_inv hrun
  obtain ⟨_, _, hcursor, -⟩ := run_bind_inv hrun
  rw [if_pos ((fteBits_iff old cmd).2.2.2.2.2.2.2.1.2 hc)] at hcursor
  unfold writeCursor at hcursor
  obtain ⟨x, _, hx, hrun⟩ := run_bind_inv hcursor
  obtain ⟨_, _, -, hrun⟩ := run_bind_inv hrun
  obtain ⟨y, _, hy, hrun⟩ := run_bind_inv hrun
  iterate 3 obtain ⟨_, _, -, hrun⟩ := run_bind_inv hrun
  refine ⟨?_, ?_, ?_⟩
  · cases hs : screenToShort (cmd.cursorScreen 0) with
    | some t => rfl
    | none => rw [hs] at hx; exact absurd hx (by simp [StateT.lift, StateT.run])
  · cases hs : screenToShort (cmd.cursorScreen 1) with
    | some t => rfl
    | none => rw [hs] at hy; exact absurd hy (by simp [StateT.lift, StateT.run])
  · by_contra he
    rw [msgWriteEntity, if_pos (by omega)] at hrun
    exact absurd hrun (by simp)

/-! ## The screen position -/

/-- `res` is `x` up to the quantisation of the screen: the same number, or the float of a multiple
of `1 / 32767` less than a step away. -/
def ScreenAgrees (res x : BitVec 32) : Prop :=
  ¬Differ res x ∨ ∃ k : Int, -2 ^ 15 ≤ k ∧ k < 2 ^ 15 ∧ IsFinite x ∧ |val x * 32767 - k| < 1 ∧
    res = shortToScreen k

/-- A screen position that fits in a short. -/
def ScreenFits (x : BitVec 32) : Prop := ∃ t, screenToShort x = some t ∧ -2 ^ 15 ≤ t ∧ t < 2 ^ 15

theorem screenToShort_eq_some {x : BitVec 32} {t : Int} (h : screenToShort x = some t) :
    IsFinite x ∧ t = trunc (roundTo 24 (-149) (val x * 32767)) := by
  unfold screenToShort at h
  split at h
  · dsimp only at h
    split at h
    · exact ⟨‹_›, (Option.some.inj h).symm⟩
    · exact absurd h (by simp)
  · exact absurd h (by simp)

/-- The conversion keeps integer bounds. -/
theorem screen_bounds {n : Int} (hn : |n| < 2 ^ 24) :
    ((n : ℚ) ≤ q → n ≤ trunc (roundTo 24 (-149) q)) ∧
      (q ≤ n → trunc (roundTo 24 (-149) q) ≤ n) :=
  ⟨fun h => le_trunc (le_roundTo (by omega) hn h), fun h => trunc_le (roundTo_le (by omega) hn h)⟩

/-- A short that was converted is less than a step away. -/
theorem abs_sub_lt_one {t : Int} (ht : t = trunc (roundTo 24 (-149) q)) (h : -2 ^ 15 ≤ t)
    (h' : t < 2 ^ 15) : |q - t| < 1 := by
  rw [abs_lt]
  constructor
  · by_contra hc
    have e := (screen_bounds (q := q) (n := t - 1) (abs_lt.2 ⟨by omega, by omega⟩)).2
      (by push_cast; linarith)
    omega
  · by_contra hc
    have e := (screen_bounds (q := q) (n := t + 1) (abs_lt.2 ⟨by omega, by omega⟩)).1
      (by push_cast; linarith)
    omega

/-- The nearest short is at most a step away from the conversion. -/
theorem screen_near (hk : -2 ^ 15 ≤ k) (hk' : k < 2 ^ 15) (h : |q - k| < 1) :
    k - 1 ≤ trunc (roundTo 24 (-149) q) ∧ trunc (roundTo 24 (-149) q) ≤ k + 1 := by
  obtain ⟨hl, hu⟩ := abs_lt.1 h
  exact ⟨(screen_bounds (abs_lt.2 ⟨by omega, by omega⟩)).1 (by push_cast; linarith),
    (screen_bounds (abs_lt.2 ⟨by omega, by omega⟩)).2 (by push_cast; linarith)⟩

/-- The float of a short is close to the multiple it stands for. -/
theorem abs_val_shortToScreen_sub (hk : -2 ^ 15 ≤ k) (hk' : k < 2 ^ 15) :
    |val (shortToScreen k) * 32767 - k| < 1 / 2 := by
  have hkl : (-2 ^ 15 : ℚ) ≤ k := by exact_mod_cast hk
  have hku : (k : ℚ) < 2 ^ 15 := by exact_mod_cast hk'
  have hq : |(k : ℚ) / 32767| < 3 / 2 := by
    rw [abs_lt, lt_div_iff₀ (by norm_num), div_lt_iff₀ (by norm_num)]
    constructor <;> linarith
  have h53 : |roundTo 53 (-1074) ((k : ℚ) / 32767) - k / 32767| ≤ _ :=
    abs_roundTo_sub_le_of_lt_two (by norm_num) (by linarith)
  have h53' : |roundTo 53 (-1074) (k / 32767)| < 2 := by
    have := abs_sub_abs_le_abs_sub (roundTo 53 (-1074) (k / 32767)) (k / 32767)
    norm_num at h53
    linarith
  have h24 : |roundTo 24 (-149) (roundTo 53 (-1074) ((k : ℚ) / 32767)) - _| ≤ _ :=
    abs_roundTo_sub_le_of_lt_two (by norm_num) h53'
  have hval := val_ofRat (lt_trans h53' (by norm_num))
  rw [shortToScreen, hval]
  generalize roundTo 53 (-1074) (k / 32767) = d at h53 h24 ⊢
  generalize roundTo 24 (-149) d = f at h24 ⊢
  have hk32 : (k : ℚ) / 32767 * 32767 = k := div_mul_cancel₀ _ (by norm_num)
  norm_num at h53 h24
  rw [abs_le] at h53 h24
  rw [abs_lt]
  constructor <;> linarith [h53.1, h53.2, h24.1, h24.2]

theorem shortToScreen_injective {k' : Int} (hk : -2 ^ 15 ≤ k ∧ k < 2 ^ 15)
    (hk' : -2 ^ 15 ≤ k' ∧ k' < 2 ^ 15) (h : shortToScreen k = shortToScreen k') : k = k' := by
  have e := abs_lt.1 (abs_val_shortToScreen_sub hk.1 hk.2)
  have e' := abs_lt.1 (abs_val_shortToScreen_sub hk'.1 hk'.2)
  rw [h] at e
  have hl : (k : ℚ) < k' + 1 := by linarith [e.1, e'.2]
  have hu : (k' : ℚ) < k + 1 := by linarith [e.2, e'.1]
  norm_cast at hl hu
  omega

/-- **A screen position comes back, up to its quantisation, when it fits in a short.** -/
theorem screenAgrees_decoded_iff {x : BitVec 32} (h : (screenToShort x).isSome) :
    ScreenAgrees (screenDecoded x) x ↔ ScreenFits x := by
  obtain ⟨t, ht⟩ := Option.isSome_iff_exists.1 h
  obtain ⟨hx, htr⟩ := screenToShort_eq_some ht
  have hdec : screenDecoded x = shortToScreen (BitVec.ofInt 16 t).toInt := by
    rw [screenDecoded, ht]
    rfl
  have hwrap : -2 ^ 15 ≤ (BitVec.ofInt 16 t).toInt ∧ (BitVec.ofInt 16 t).toInt < 2 ^ 15 :=
    toInt_range _
  have hmod : (BitVec.ofInt 16 t).toInt % 2 ^ 16 = t % 2 ^ 16 := by
    rw [BitVec.toInt_ofInt, Int.bmod_def]
    split <;> omega
  rw [hdec]
  constructor
  · intro hs
    -- the short that came back is near the position, so it is what was converted
    have hnear : |val x * 32767 - (BitVec.ofInt 16 t).toInt| < 1 := by
      rcases hs with hs | ⟨k, hk, hk', -, hlt, hres⟩
      · rw [← val_eq_of_not_differ hs]
        linarith [abs_val_shortToScreen_sub hwrap.1 hwrap.2]
      · rwa [shortToScreen_injective hwrap ⟨hk, hk'⟩ hres]
    obtain ⟨hl, hu⟩ := screen_near hwrap.1 hwrap.2 hnear
    rw [← htr] at hl hu
    exact ⟨t, ht, by omega, by omega⟩
  · rintro ⟨t', ht', hl, hu⟩
    obtain rfl : t = t' := Option.some.inj (ht.symm.trans ht')
    rw [toInt_ofInt_of_range hl hu]
    exact .inr ⟨t, hl, hu, hx, abs_sub_lt_one htr hl hu, rfl⟩

/-! ## The round trip -/

/-- `move` is `cmd` in every field that is sent. -/
structure FteAgrees (cmd move : Usercmd) : Prop where
  servertime : move.servertime = cmd.servertime
  angles : move.angles = cmd.angles
  forwardmove : move.forwardmove = cmd.forwardmove
  sidemove : move.sidemove = cmd.sidemove
  upmove : move.upmove = cmd.upmove
  buttons : move.buttons = cmd.buttons
  impulse : move.impulse = cmd.impulse
  weapon : move.weapon = cmd.weapon
  lightlevel : move.lightlevel = cmd.lightlevel
  cursorScreen : ∀ i, ScreenAgrees (move.cursorScreen i) (cmd.cursorScreen i)
  cursorStart : move.cursorStart = cmd.cursorStart
  cursorImpact : move.cursorImpact = cmd.cursorImpact
  cursorEntitynumber : move.cursorEntitynumber = cmd.cursorEntitynumber
  vr : ∀ i, move.vr i = cmd.vr i

/-- **The delta of `cmd` from `old` comes back**, whatever the destination `dest` held. -/
def FteRoundTrip (old cmd dest : Usercmd) : Prop :=
  ∃ move, RoundTrip (msgFteWriteDeltaUsercmd (fun _ => 0) old cmd) (msgFteReadDeltaUsercmd old dest)
    move ∧ FteAgrees cmd move

/-- The changes of a device that are sent. -/
structure VrCarried (old cmd : VrDevInfo) : Prop where
  origin : cmd.origin = old.origin ∨ msgCompareVR old cmd ∧ VecDiffer cmd.origin old.origin
  velocity : cmd.velocity = old.velocity ∨ VecDiffer cmd.velocity old.velocity
  weapon : cmd.weapon = old.weapon ∨ msgCompareVR old cmd

/-- The changes of the cursor that are sent, and fit. -/
def CursorCarried (old cmd : Usercmd) : Prop :=
  if CursorDiffers old cmd then
    (∀ i, ScreenFits (cmd.cursorScreen i)) ∧ cmd.cursorEntitynumber.toNat ≤ maxEdicts
  else cmd.cursorStart = old.cursorStart ∧ cmd.cursorImpact = old.cursorImpact

/-- The changes of a command that are sent. -/
structure FteCarried (old cmd : Usercmd) : Prop where
  weapon : cmd.weapon = old.weapon ∨ cmd.buttons ≠ old.buttons
  cursor : CursorCarried old cmd
  vr : ∀ i, VrCarried (old.vr i) (cmd.vr i)

theorem vrDecoded_eq_iff (old cmd : VrDevInfo) :
    (if msgCompareVR old cmd then vrDecoded old cmd else old) = cmd ↔ VrCarried old cmd := by
  by_cases hc : msgCompareVR old cmd
  · rw [if_pos hc, vrDecoded]
    constructor
    · intro h
      have ho := congrArg VrDevInfo.origin h
      have hv := congrArg VrDevInfo.velocity h
      refine ⟨?_, ?_, .inr hc⟩
      · by_cases hd : VecDiffer cmd.origin old.origin
        · exact .inr ⟨hc, hd⟩
        · exact .inl (ho.symm.trans (if_neg hd))
      · by_cases hd : VecDiffer cmd.velocity old.velocity
        · exact .inr hd
        · exact .inl (hv.symm.trans (if_neg hd))
    · rintro ⟨ho, hv, -⟩
      have ho' : (if VecDiffer cmd.origin old.origin then cmd.origin else old.origin) =
          cmd.origin := ite_eq_left_iff.2 fun hd => (ho.resolve_right fun h => hd h.2).symm
      have hv' : (if VecDiffer cmd.velocity old.velocity then cmd.velocity else old.velocity) =
          cmd.velocity := ite_eq_left_iff.2 fun hd => (hv.resolve_right hd).symm
      rw [ho', hv']
  · rw [if_neg hc]
    constructor
    · rintro rfl
      exact ⟨.inl rfl, .inl rfl, .inl rfl⟩
    · rintro ⟨ho, hv, hw⟩
      have ho := ho.resolve_right fun h => hc h.1
      have hw := hw.resolve_right hc
      unfold msgCompareVR at hc
      simp only [not_or, not_not] at hc
      obtain ⟨hs, ha, hav, -, hvel⟩ := hc
      exact VrDevInfo.ext hs.symm (eq_of_not_anglesDiffer (by simpa [AnglesDiffer] using ha))
        (eq_of_not_anglesDiffer (by simpa [AnglesDiffer] using hav)) ho.symm
        (hv.resolve_right (by simpa [VecDiffer] using hvel)).symm hw.symm

/-- What is sent of the cursor. -/
theorem cursorAgrees_decoded_iff (h : CursorDiffers old cmd → CursorWritable cmd) :
    ((∀ i, ScreenAgrees ((fteDecoded old cmd).cursorScreen i) (cmd.cursorScreen i)) ∧
      (fteDecoded old cmd).cursorStart = cmd.cursorStart ∧
      (fteDecoded old cmd).cursorImpact = cmd.cursorImpact ∧
      (fteDecoded old cmd).cursorEntitynumber = cmd.cursorEntitynumber) ↔
    CursorCarried old cmd := by
  unfold CursorCarried fteDecoded
  by_cases hd : CursorDiffers old cmd
  · obtain ⟨h0, h1, he⟩ := h hd
    simp only [if_pos hd, cursorDecoded]
    rw [Fin.forall_fin_two, Fin.forall_fin_two]
    have e0 := screenAgrees_decoded_iff h0
    have e1 := screenAgrees_decoded_iff h1
    exact ⟨fun ⟨hs, _⟩ => ⟨⟨e0.1 hs.1, e1.1 hs.2⟩, he⟩,
      fun ⟨hs, _⟩ => ⟨⟨e0.2 hs.1, e1.2 hs.2⟩, trivial, trivial, trivial⟩⟩
  · simp only [if_neg hd]
    have hs := hd
    unfold CursorDiffers at hs
    simp only [not_or, not_not] at hs
    obtain ⟨⟨h0, h1⟩, -, -, he⟩ := hs
    rw [Fin.forall_fin_two]
    exact ⟨fun ⟨_, hst, him, _⟩ => ⟨hst.symm, him.symm⟩, fun ⟨hst, him⟩ =>
      ⟨⟨.inl fun h => h0 h.symm, .inl fun h => h1 h.symm⟩, hst.symm, him.symm, he.symm⟩⟩

/-- What comes back is the command when all its changes are sent. -/
theorem fteAgrees_decoded_iff (h : CursorDiffers old cmd → CursorWritable cmd) :
    FteAgrees cmd (fteDecoded old cmd) ↔ FteCarried old cmd := by
  have hcursor := cursorAgrees_decoded_iff h
  constructor
  · intro ha
    refine ⟨?_, hcursor.1 ⟨ha.cursorScreen, ha.cursorStart, ha.cursorImpact,
      ha.cursorEntitynumber⟩, fun i => (vrDecoded_eq_iff _ _).1 (ha.vr i)⟩
    have hw := ha.weapon
    by_cases hb : cmd.buttons ≠ old.buttons
    · exact .inr hb
    · exact .inl (hw.symm.trans (if_neg hb))
  · rintro ⟨hw, hc, hv⟩
    obtain ⟨hsc, hst, him, he⟩ := hcursor.2 hc
    refine ⟨rfl, rfl, rfl, rfl, rfl, rfl, rfl, ?_, rfl, hsc, hst, him, he, fun i => (vrDecoded_eq_iff _ _).2 (hv i)⟩
    exact ite_eq_left_iff.2 fun hb => (hw.resolve_right hb).symm

/-- **When the delta of a user command comes back.** -/
theorem msgFteDeltaUsercmd_roundTrip_iff (old cmd dest : Usercmd) :
    FteRoundTrip old cmd dest ↔ FteCarried old cmd := by
  by_cases h : CursorDiffers old cmd → CursorWritable cmd
  · have hdec := fteDelta_roundTrip dest h
    rw [← fteAgrees_decoded_iff h]
    refine ⟨?_, fun ha => ⟨_, hdec, ha⟩⟩
    rintro ⟨move, hm, ha⟩
    rwa [hm.unique hdec] at ha
  · rw [Classical.not_imp] at h
    refine ⟨fun ⟨move, hm, _⟩ => absurd (writable_of_roundTrip hm h.1) h.2, fun hc => ?_⟩
    have hcursor := hc.cursor
    rw [CursorCarried, if_pos h.1] at hcursor
    obtain ⟨hs, he⟩ := hcursor
    have hsome : ∀ i, (screenToShort (cmd.cursorScreen i)).isSome := by
      intro i
      obtain ⟨t, ht, -⟩ := hs i
      rw [ht]
      rfl
    exact absurd ⟨hsome 0, hsome 1, he⟩ h.2

/-- **A change of the weapon alone is lost.** -/
theorem weapon_not_fteRoundTrip :
    ¬FteRoundTrip (idleUsercmd 0) { idleUsercmd 0 with weapon := 1 } (idleUsercmd 0) := by
  rintro ⟨move, hm, ha⟩
  have hc : ¬CursorDiffers (idleUsercmd 0) { idleUsercmd 0 with weapon := 1 } := by decide
  have e := hm.unique (fteDelta_roundTrip _ fun h => absurd h hc)
  have hw := ha.weapon
  rw [e] at hw
  exact absurd hw (by decide)

end FteQuake
