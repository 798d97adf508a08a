import FteQuake.Common.EntityState

/-!
# Replacement deltas of entities

`SVFTE_DeltaCalcBits` and `SVFTE_WriteUpdate` of `sv_ents.c`, and `CLFTE_ReadDelta` of `cl_ents.c`.
The change bits of an entity are computed by the first, moved about and sent by the second in up to
four bytes, and say the third which fields follow. The parts of a message are defined in the order
in which they are sent, the writer of each beside its reader.

As in the deltas of QuakeWorld, `from` and `to` are `old` and `new`. The bone data of a packet is a
memory, with the offset of the next allocation. A conversion of a float that does not fit a short is
undefined in C; the client makes one for its view angles, which no message holds, and `wildShort`
stands for what it gets.
-/

namespace FteQuake

open StreamProgram BitFlags BinaryFloat MsgState Sizebuf

/-! ## Flags -/

def ufFrame : BitVec 32 := 1#32 <<< 0
def ufOriginxy : BitVec 32 := 1#32 <<< 1
def ufOriginz : BitVec 32 := 1#32 <<< 2
def ufAnglesxz : BitVec 32 := 1#32 <<< 3
def ufAnglesy : BitVec 32 := 1#32 <<< 4
def ufEffects : BitVec 32 := 1#32 <<< 5
def ufPredinfo : BitVec 32 := 1#32 <<< 6
def ufExtend1 : BitVec 32 := 1#32 <<< 7
def ufReset : BitVec 32 := 1#32 <<< 8
def uf16bitLerptime : BitVec 32 := 1#32 <<< 9
def ufModel : BitVec 32 := 1#32 <<< 10
def ufSkin : BitVec 32 := 1#32 <<< 11
def ufColormap : BitVec 32 := 1#32 <<< 12
def ufSolid : BitVec 32 := 1#32 <<< 13
def ufFlags : BitVec 32 := 1#32 <<< 14
def ufExtend2 : BitVec 32 := 1#32 <<< 15
def ufAlpha : BitVec 32 := 1#32 <<< 16
def ufScale : BitVec 32 := 1#32 <<< 17
def ufBonedata : BitVec 32 := 1#32 <<< 18
def ufDrawflags : BitVec 32 := 1#32 <<< 19
def ufTaginfo : BitVec 32 := 1#32 <<< 20
def ufLight : BitVec 32 := 1#32 <<< 21
def ufTraileffect : BitVec 32 := 1#32 <<< 22
def ufExtend3 : BitVec 32 := 1#32 <<< 23
def ufColormod : BitVec 32 := 1#32 <<< 24
def ufGlow : BitVec 32 := 1#32 <<< 25
def ufFatness : BitVec 32 := 1#32 <<< 26
def ufModelindex2 : BitVec 32 := 1#32 <<< 27
def ufGravitydir : BitVec 32 := 1#32 <<< 28
def ufEffects2Old : BitVec 32 := 1#32 <<< 29
def ufUnused1 : BitVec 32 := 1#32 <<< 30
def ufExtend4 : BitVec 32 := 1#32 <<< 31

/-! The flags that only the server uses are in the places of those that announce more bits. -/

def ufSvWeaponframeOld : BitVec 32 := ufExtend2
def ufSvViewangles : BitVec 32 := ufExtend3
def ufSvMovetype : BitVec 32 := ufExtend4

def ufpForward : BitVec 32 := 1#32 <<< 0
def ufpSide : BitVec 32 := 1#32 <<< 1
def ufpUp : BitVec 32 := 1#32 <<< 2
def ufpMovetype : BitVec 32 := 1#32 <<< 3
def ufpVelocityxy : BitVec 32 := 1#32 <<< 4
def ufpVelocityz : BitVec 32 := 1#32 <<< 5
def ufpMsec : BitVec 32 := 1#32 <<< 6
def ufpWeaponframeOld : BitVec 32 := 1#32 <<< 7
def ufpViewangle : BitVec 32 := 1#32 <<< 7

def pext2Replacementdeltas : BitVec 32 := 0x00000008
def pext2Predinfo : BitVec 32 := 0x00000020
def pext2Newsizeencoding : BitVec 32 := 0x00000040
def pext2Lerptime : BitVec 32 := 0x00000400
def pext2Bonecontrols : BitVec 32 := 0x00000800
def pext2Bodygroup : BitVec 32 := 0x00001000
def pext2Framerate : BitVec 32 := 0x00002000
def pext2Bigvelocity : BitVec 32 := 0x00004000

/-- The extensions with which bone data is sent. -/
def pext2Bones : BitVec 32 :=
  pext2Newsizeencoding ||| pext2Bonecontrols ||| pext2Bodygroup ||| pext2Framerate

/-- `ES_SOLID_HULL1`. -/
def esSolidHull1 : BitVec 32 := 0x80201810

/-- `ES_SOLID_HULL2`. -/
def esSolidHull2 : BitVec 32 := 0x80401820

/-- `nullentitystate`. -/
def nullEntity : EntityState :=
  { zeroEntity with
    hexen2flags := 96, colormod := fun _ => 32, glowmod := fun _ => 32, trans := 255, scale := 16 }

/-! ## The change bits -/

/-- `SVFTE_DeltaPredCalcBits`. -/
def svfteDeltaPredCalcBits (old : Option EntityState) (new : EntityState) : BitVec 32 :=
  0 |> orIf (∃ s ∈ old, s.pmovetype ≠ new.pmovetype) ufpMovetype
    |> orIf (new.movement 0 ≠ 0) ufpForward
    |> orIf (new.movement 1 ≠ 0) ufpSide
    |> orIf (new.movement 2 ≠ 0) ufpUp
    |> orIf (new.velocity 0 ≠ 0) ufpVelocityxy
    |> orIf (new.velocity 1 ≠ 0) ufpVelocityxy
    |> orIf (new.velocity 2 ≠ 0) ufpVelocityz
    |> orIf (new.msec ≠ 0) ufpMsec

/-- The change bits of the player's movement, with the origin and the angles that a moving player
sends anyway. `us` says that the client is the one that the entity belongs to. -/
def ftePredCalcBits (old new : EntityState) (pext2 : BitVec 32) (us : Bool) : BitVec 32 :=
  let bits := 0 |> orIf (old.pmovetype ≠ new.pmovetype) (ufPredinfo ||| ufSvMovetype)
    |> orIf (old.weaponframe ≠ new.weaponframe ∧ pext2 &&& pext2Predinfo = 0)
      (ufPredinfo ||| ufSvWeaponframeOld)
  if new.pmovetype ≠ 0 then
    let bits := orIf (svfteDeltaPredCalcBits (some old) new ≠ 0) ufPredinfo bits
    let moving := bits &&& ufPredinfo ≠ 0 ∧
      (old.velocity 0 ≠ 0 ∨ old.velocity 1 ≠ 0 ∨ old.velocity 2 ≠ 0)
    bits |> orIf moving (ufOriginxy ||| ufOriginz)
      |> orIf (moving ∧ us = false) (ufAnglesxz ||| ufAnglesy)
  else bits

/-- `sizeof(short)*7` for each bone. -/
def boneSize (bonecount : QByte) : ℕ := bonecount.toNat * 14

/-- The bytes of the bones of an entity. -/
def boneBytes (bonedata : Mem QByte) (s : EntityState) : List QByte :=
  bonedata.slice s.boneoffset.toNat (boneSize s.bonecount)

/-- The bones differ, or the bones that are posed in their place. -/
def BonesDiffer (old : EntityState) (oldbones : Mem QByte) (new : EntityState)
    (newbones : Mem QByte) : Prop :=
  new.bonecount ≠ old.bonecount ∨
    new.bonecount ≠ 0 ∧ oldbones.slice old.boneoffset.toNat (boneSize new.bonecount) ≠
      boneBytes newbones new ∨
    new.bonecount = 0 ∧ (new.basebone ≠ old.basebone ∨ new.baseframe ≠ old.baseframe)

instance (old : EntityState) (oldbones : Mem QByte) (new : EntityState) (newbones : Mem QByte) :
    Decidable (BonesDiffer old oldbones new newbones) :=
  inferInstanceAs (Decidable (_ ∨ _ ∧ _ ∨ _ ∧ (_ ∨ _)))

/-- `SVFTE_DeltaCalcBits`. -/
def svfteDeltaCalcBits (old : EntityState) (oldbones : Mem QByte) (new : EntityState)
    (newbones : Mem QByte) (pext2 : BitVec 32) (us : Bool) : BitVec 32 :=
  ftePredCalcBits old new pext2 us
    |> orIf (Differ (new.origin 0) (old.origin 0) ∨ Differ (new.origin 1) (old.origin 1)) ufOriginxy
    |> orIf (Differ (new.origin 2) (old.origin 2)) ufOriginz
    |> orIf (Differ (new.angles 0) (old.angles 0) ∨ Differ (new.angles 2) (old.angles 2)) ufAnglesxz
    |> orIf (Differ (new.angles 1) (old.angles 1)) ufAnglesy
    |> orIf (new.modelindex ≠ old.modelindex) ufModel
    |> orIf (new.frame ≠ old.frame) ufFrame
    |> orIf (new.skinnum ≠ old.skinnum) ufSkin
    |> orIf (new.colormap ≠ old.colormap) ufColormap
    |> orIf (new.effects ≠ old.effects) ufEffects
    |> orIf (new.dpflags ≠ old.dpflags) ufFlags
    |> orIf (new.solidsize ≠ old.solidsize) ufSolid
    |> orIf (new.scale ≠ old.scale) ufScale
    |> orIf (new.trans ≠ old.trans) ufAlpha
    |> orIf (new.fatness ≠ old.fatness) ufFatness
    |> orIf (new.hexen2flags ≠ old.hexen2flags ∨ new.abslight ≠ old.abslight) ufDrawflags
    |> orIf (pext2 &&& pext2Newsizeencoding ≠ 0 ∧ BonesDiffer old oldbones new newbones) ufBonedata
    |> orIf (pext2 &&& pext2Bonecontrols ≠ 0 ∧ new.bonecontrol ≠ old.bonecontrol) ufBonedata
    |> orIf (pext2 &&& pext2Bodygroup ≠ 0 ∧ new.bodygroup ≠ old.bodygroup) ufBonedata
    |> orIf (pext2 &&& pext2Framerate ≠ 0 ∧ new.animrate ≠ old.animrate) ufBonedata
    |> orIf (new.colormod ≠ old.colormod) ufColormod
    |> orIf (new.glowsize ≠ old.glowsize ∨ new.glowcolour ≠ old.glowcolour ∨
        new.glowmod ≠ old.glowmod) ufGlow
    |> orIf (new.tagentity ≠ old.tagentity ∨ new.tagindex ≠ old.tagindex) ufTaginfo
    |> orIf (new.light ≠ old.light ∨ new.lightstyle ≠ old.lightstyle ∨
        new.lightpflags ≠ old.lightpflags) ufLight
    |> orIf (new.traileffectnum ≠ old.traileffectnum ∨ new.emiteffectnum ≠ old.emiteffectnum)
      ufTraileffect
    |> orIf (new.modelindex2 ≠ old.modelindex2) ufModelindex2
    |> orIf (new.gravitydir ≠ old.gravitydir) ufGravitydir

/-! ## The bits of a message -/

/-- `bits` without the flags of the server. -/
def fteServerBits (pext2 bits : BitVec 32) : BitVec 32 :=
  let bits := bits &&& ~~~ufSvMovetype
  let view := bits &&& ufSvViewangles ≠ 0
  let bits := orIf view ufPredinfo (bits &&& ~~~ufSvViewangles)
  let bits := if pext2 &&& pext2Predinfo = 0 then bits &&& ~~~ufSvWeaponframeOld else bits
  if pext2 &&& pext2Bones = 0 then bits &&& ~~~ufBonedata else bits

/-- The flags of the server that go into `predbits`. -/
def fteServerPredbits (pext2 bits : BitVec 32) : BitVec 32 :=
  0 |> orIf (bits &&& ufSvMovetype ≠ 0) ufpMovetype
    |> orIf (pext2 &&& pext2Predinfo ≠ 0 ∧ bits &&& ufSvViewangles ≠ 0) ufpViewangle
    |> orIf (pext2 &&& pext2Predinfo = 0 ∧ bits &&& ufSvWeaponframeOld ≠ 0) ufpWeaponframeOld

/-- The flags of the width of the effects. -/
def fteEffectsBits (effects bits : BitVec 32) : BitVec 32 :=
  if bits &&& ufEffects ≠ 0 then
    if effects &&& 0xffff0000 ≠ 0 then bits ||| (ufEffects ||| ufEffects2Old)
    else if effects &&& 0x0000ff00 ≠ 0 then bits &&& ~~~ufEffects ||| ufEffects2Old
    else bits
  else bits

/-- The flags of widths, or the one of the time that is left of a lerp. -/
def fteWideBits (pext2 : BitVec 32) (ahead : Bool) (new : EntityState) (bits : BitVec 32) :
    BitVec 32 :=
  if pext2 &&& pext2Lerptime ≠ 0 then
    orIf (bits &&& (ufFrame ||| ufModel ||| ufReset ||| ufAnglesxz ||| ufAnglesy) ≠ 0 ∧
      ahead = true) uf16bitLerptime bits
  else
    bits |> orIf (bits &&& ufModel ≠ 0 ∧ 255 < new.modelindex) uf16bitLerptime
      |> orIf (bits &&& ufModelindex2 ≠ 0 ∧ 255 < new.modelindex2) uf16bitLerptime
      |> orIf (bits &&& ufSkin ≠ 0 ∧ 255 < new.skinnum) uf16bitLerptime
      |> orIf (bits &&& ufFrame ≠ 0 ∧ 255 < new.frame) uf16bitLerptime
      |> fteEffectsBits new.effects

/-- The flags that announce more bytes of bits. -/
def fteExtendBits (bits : BitVec 32) : BitVec 32 :=
  let bits := orIf (bits &&& 0xff000000 ≠ 0) ufExtend3 bits
  let bits := orIf (bits &&& 0x00ff0000 ≠ 0) ufExtend2 bits
  orIf (bits &&& 0x0000ff00 ≠ 0) ufExtend1 bits

def fteWriteBits (bits : BitVec 32) : MsgWriter Unit := do
  msgWriteByte (bits &&& 0xff).toNat
  (if bits &&& ufExtend1 ≠ 0 then msgWriteByte (bits >>> 8 &&& 0xff).toNat else pure ())
  (if bits &&& ufExtend2 ≠ 0 then msgWriteByte (bits >>> 16 &&& 0xff).toNat else pure ())
  (if bits &&& ufExtend3 ≠ 0 then msgWriteByte (bits >>> 24 &&& 0xff).toNat else pure ())

/-- The bits behind `bits`, which has the flag of a byte of them. -/
def fteReadMoreBits (flag bits : BitVec 32) (shift : ℕ) : MsgReader (BitVec 32) :=
  if bits &&& flag ≠ 0 then (fun i => bits ||| BitVec.ofInt 32 i <<< shift) <$> msgReadByte
  else pure bits

def fteReadBits : MsgReader (BitVec 32) := do
  let bits ← BitVec.ofInt 32 <$> msgReadByte
  let bits ← fteReadMoreBits ufExtend1 bits 8
  let bits ← fteReadMoreBits ufExtend2 bits 16
  let bits ← fteReadMoreBits ufExtend3 bits 24
  if bits &&& ufExtend4 ≠ 0 then failure else return bits

/-! ## Numbers of the width that the extensions give them -/

/-- An index of models or frames. -/
def fteWriteIndex (pext2 bits : BitVec 32) (x : BitVec 16) : MsgWriter Unit :=
  if pext2 &&& pext2Lerptime ≠ 0 then msgWriteULEB128 (x.setWidth 64)
  else if bits &&& uf16bitLerptime ≠ 0 then msgWriteShort x.toNat
  else msgWriteByte x.toNat

def fteReadIndex (pext2 bits : BitVec 32) : MsgReader (BitVec 16) :=
  if pext2 &&& pext2Lerptime ≠ 0 then BitVec.setWidth 16 <$> msgReadULEB128
  else if bits &&& uf16bitLerptime ≠ 0 then BitVec.ofInt 16 <$> msgReadShort
  else BitVec.ofInt 16 <$> msgReadByte

/-- A number that is stored in a byte. -/
def fteWriteSmall (pext2 : BitVec 32) (x : QByte) : MsgWriter Unit :=
  if pext2 &&& pext2Lerptime ≠ 0 then msgWriteULEB128 (x.setWidth 64) else msgWriteByte x.toNat

def fteReadSmall (pext2 : BitVec 32) : MsgReader QByte :=
  if pext2 &&& pext2Lerptime ≠ 0 then BitVec.setWidth 8 <$> msgReadULEB128
  else BitVec.ofInt 8 <$> msgReadByte

/-! ## Frame, origin, angles, effects -/

/-- The client of an entity: the extensions, its clock, and conversions of floats to a short that
the language leaves undefined. -/
structure FteClient where
  pext2 : BitVec 32
  ezext1 : BitVec 32
  incomingSequence : BitVec 32
  gametime : ℚ
  wildShort : BitVec 32 → BitVec 16

/-- The double-precision result of an operation whose exact result is `q`. -/
def double (q : ℚ) : ℚ := roundTo 53 (-1074) q

/-- `state->lerpend > sv.world.physicstime`. -/
def lerpAhead (lerpend : BitVec 32) (physicstime : ℚ) : Bool :=
  if IsFinite lerpend then physicstime < val lerpend else lerpend = 0x7f800000

/-- The milliseconds that are left of a lerp. -/
def lerpTime (lerpend : BitVec 32) (physicstime : ℚ) : Option (BitVec 32) :=
  toSigned 32 lerpend (trunc (double (double (val lerpend - physicstime) * 1000)))

def fteWriteOrigin (coordtype : QByte) (ezext1 bits : BitVec 32) (origin : Fin 3 → BitVec 32) :
    MsgWriter Unit := do
  let coord (i : Fin 3) := if ezext1 &&& ezpext1Floatentcoords ≠ 0 then msgWriteFloat (origin i)
    else msgWriteCoord coordtype (origin i)
  (if bits &&& ufOriginxy ≠ 0 then do coord 0; coord 1 else pure ())
  (if bits &&& ufOriginz ≠ 0 then coord 2 else pure ())

def fteReadOrigin (coordtype : QByte) (ezext1 bits : BitVec 32) (origin : Fin 3 → BitVec 32) :
    MsgReader (Fin 3 → BitVec 32) := do
  let coord := if ezext1 &&& ezpext1Floatentcoords ≠ 0 then msgReadFloat else msgReadCoord coordtype
  let (x, y) ← (if bits &&& ufOriginxy ≠ 0 then do
      let x ← coord
      let y ← coord
      return (x, y)
    else pure (origin 0, origin 1))
  let z ← (if bits &&& ufOriginz ≠ 0 then coord else pure (origin 2))
  return ![x, y, z]

/-- Angles with prediction info are sent as shorts, unless an extension moves that precision into
the view angles. -/
def fteAnglesize (anglesize : ℕ) (pext2 bits : BitVec 32) : ℕ :=
  if bits &&& ufPredinfo ≠ 0 ∧ pext2 &&& pext2Predinfo = 0 then 2 else anglesize

def fteWriteAngles (anglesize : ℕ) (bits : BitVec 32) (angles : Fin 3 → BitVec 32) :
    MsgWriter Unit := do
  (if bits &&& ufAnglesxz ≠ 0 then do
      msgWriteAngle anglesize (angles 0)
      msgWriteAngle anglesize (angles 2)
    else pure ())
  (if bits &&& ufAnglesy ≠ 0 then msgWriteAngle anglesize (angles 1) else pure ())

def fteReadAngles (anglesize : ℕ) (bits : BitVec 32) (angles : Fin 3 → BitVec 32) :
    MsgReader (Fin 3 → BitVec 32) := do
  let (x, z) ← (if bits &&& ufAnglesxz ≠ 0 then do
      let x ← msgReadAngle anglesize
      let z ← msgReadAngle anglesize
      return (x, z)
    else pure (angles 0, angles 2))
  let y ← (if bits &&& ufAnglesy ≠ 0 then msgReadAngle anglesize else pure (angles 1))
  return ![x, y, z]

/-- The time of a lerp and the effects. -/
def fteWriteEffects (pext2 bits : BitVec 32) (physicstime : ℚ) (new : EntityState) :
    MsgWriter Unit :=
  if pext2 &&& pext2Lerptime ≠ 0 then do
    (if bits &&& uf16bitLerptime ≠ 0 then do
      let t ← StateT.lift (lerpTime new.lerpend physicstime)
      msgWriteULEB128 (BitVec.ofInt 64 (max 0 t.toInt))
      else pure ())
    (if bits &&& ufEffects ≠ 0 then msgWriteULEB128 (new.effects.setWidth 64) else pure ())
  else if bits &&& (ufEffects ||| ufEffects2Old) = ufEffects ||| ufEffects2Old then
    msgWriteLong new.effects.toInt
  else if bits &&& ufEffects2Old ≠ 0 then msgWriteShort new.effects.toInt
  else if bits &&& ufEffects ≠ 0 then msgWriteByte new.effects.toInt
  else pure ()

/-- The end of a lerp and the effects. -/
def fteReadEffects (c : FteClient) (bits : BitVec 32) (new : EntityState) :
    MsgReader (BitVec 32 × BitVec 32) :=
  if c.pext2 &&& pext2Lerptime ≠ 0 then do
    let lerpend ← (if bits &&& uf16bitLerptime ≠ 0 then
      (fun n : BitVec 64 =>
        ofRat (double (c.gametime + double (double n.toNat * double (1 / 1000))))) <$>
          msgReadULEB128
      else pure new.lerpend)
    let effects ← (if bits &&& ufEffects ≠ 0 then BitVec.setWidth 32 <$> msgReadULEB128
      else pure new.effects)
    if bits &&& ufEffects2Old ≠ 0 then failure else return (lerpend, effects)
  else if bits &&& (ufEffects ||| ufEffects2Old) = ufEffects ||| ufEffects2Old then
    (fun i => (new.lerpend, BitVec.ofInt 32 i)) <$> msgReadLong
  else if bits &&& ufEffects2Old ≠ 0 then
    (fun i => (new.lerpend, (BitVec.ofInt 16 i).setWidth 32)) <$> msgReadShort
  else if bits &&& ufEffects ≠ 0 then
    (fun i => (new.lerpend, BitVec.ofInt 32 i)) <$> msgReadByte
  else pure (new.lerpend, new.effects)

/-- The fields up to the effects. -/
def fteWriteFirst (prim : Netprim) (pext2 ezext1 bits : BitVec 32) (physicstime : ℚ)
    (new : EntityState) : MsgWriter Unit := do
  (if bits &&& ufFrame ≠ 0 then fteWriteIndex pext2 bits new.frame else pure ())
  fteWriteOrigin prim.coordtype ezext1 bits new.origin
  fteWriteAngles (fteAnglesize prim.anglesize.toNat pext2 bits) bits new.angles
  fteWriteEffects pext2 bits physicstime new

def fteReadFirst (c : FteClient) (prim : Netprim) (bits : BitVec 32) (new : EntityState) :
    MsgReader EntityState := do
  let frame ← (if bits &&& ufFrame ≠ 0 then fteReadIndex c.pext2 bits else pure new.frame)
  let origin ← fteReadOrigin prim.coordtype c.ezext1 bits new.origin
  let angles ← fteReadAngles (fteAnglesize prim.anglesize.toNat c.pext2 bits) bits new.angles
  let (lerpend, effects) ← fteReadEffects c bits new
  return { new with
    frame := frame, origin := origin, angles := angles, lerpend := lerpend, effects := effects }

/-! ## Prediction -/

/-- A component of the velocity. -/
def fteWriteSpeed (pext2 x : BitVec 32) : MsgWriter Unit :=
  if pext2 &&& pext2Bigvelocity ≠ 0 then msgWriteLong x.toInt else msgWriteShort x.toInt

def fteReadSpeed (pext2 : BitVec 32) : MsgReader (BitVec 32) :=
  if pext2 &&& pext2Bigvelocity ≠ 0 then BitVec.ofInt 32 <$> msgReadLong
  else BitVec.ofInt 32 <$> msgReadShort

/-- The frame of a view weapon: a second byte follows a set high bit. -/
def fteWriteWeaponframe (x : BitVec 16) : MsgWriter Unit :=
  if 127 < x then do
    msgWriteByte (128 ||| x &&& 127).toNat
    msgWriteByte (x >>> 7).toNat
  else msgWriteByte x.toNat

def fteReadWeaponframe : MsgReader (BitVec 16) := do
  let x ← BitVec.ofInt 16 <$> msgReadByte
  if x &&& 0x80 ≠ 0 then (fun i => x &&& (127 : BitVec 16) ||| BitVec.ofInt 16 i <<< 7) <$> msgReadByte
  else return x

/-- `predbits` and what they announce. -/
def fteWritePrediction (pext2 bits predbits : BitVec 32) (new : EntityState) : MsgWriter Unit := do
  msgWriteByte predbits.toNat
  (if predbits &&& ufpForward ≠ 0 then msgWriteShort (new.movement 0).toInt else pure ())
  (if predbits &&& ufpSide ≠ 0 then msgWriteShort (new.movement 1).toInt else pure ())
  (if predbits &&& ufpUp ≠ 0 then msgWriteShort (new.movement 2).toInt else pure ())
  (if predbits &&& ufpMovetype ≠ 0 then msgWriteByte new.pmovetype.toNat else pure ())
  (if predbits &&& ufpVelocityxy ≠ 0 then do
    fteWriteSpeed pext2 (new.velocity 0)
    fteWriteSpeed pext2 (new.velocity 1)
    else pure ())
  (if predbits &&& ufpVelocityz ≠ 0 then fteWriteSpeed pext2 (new.velocity 2) else pure ())
  (if predbits &&& ufpMsec ≠ 0 then msgWriteByte new.msec.toNat else pure ())
  (if pext2 &&& pext2Predinfo ≠ 0 ∧ predbits &&& ufpViewangle ≠ 0 then do
    (if bits &&& ufAnglesxz ≠ 0 then do
      msgWriteShort (new.vangle 0).toInt
      msgWriteShort (new.vangle 2).toInt
      else pure ())
    (if bits &&& ufAnglesy ≠ 0 then msgWriteShort (new.vangle 1).toInt else pure ())
    else pure ())
  (if pext2 &&& pext2Predinfo = 0 ∧ predbits &&& ufpWeaponframeOld ≠ 0 then
    fteWriteWeaponframe new.weaponframe else pure ())

/-- The view angles of a message. -/
def fteReadVangle (bits : BitVec 32) (vangle : Fin 3 → BitVec 16) :
    MsgReader (Fin 3 → BitVec 16) := do
  let (x, z) ← (if bits &&& ufAnglesxz ≠ 0 then do
      let x ← BitVec.ofInt 16 <$> msgReadShort
      let z ← BitVec.ofInt 16 <$> msgReadShort
      return (x, z)
    else pure (vangle 0, vangle 2))
  let y ← (if bits &&& ufAnglesy ≠ 0 then BitVec.ofInt 16 <$> msgReadShort else pure (vangle 1))
  return ![x, y, z]

/-- `predbits` and the state with what they announce. What moves is 0 unless it is sent. -/
def fteReadPrediction (pext2 bits : BitVec 32) (new : EntityState) :
    MsgReader (BitVec 32 × EntityState) := do
  let predbits ← BitVec.ofInt 32 <$> msgReadByte
  let forward ← (if predbits &&& ufpForward ≠ 0 then BitVec.ofInt 16 <$> msgReadShort else pure 0)
  let side ← (if predbits &&& ufpSide ≠ 0 then BitVec.ofInt 16 <$> msgReadShort else pure 0)
  let up ← (if predbits &&& ufpUp ≠ 0 then BitVec.ofInt 16 <$> msgReadShort else pure 0)
  let pmovetype ← (if predbits &&& ufpMovetype ≠ 0 then BitVec.ofInt 8 <$> msgReadByte
    else pure new.pmovetype)
  let (x, y) ← (if predbits &&& ufpVelocityxy ≠ 0 then do
      let x ← fteReadSpeed pext2
      let y ← fteReadSpeed pext2
      return (x, y)
    else pure (0, 0))
  let z ← (if predbits &&& ufpVelocityz ≠ 0 then fteReadSpeed pext2 else pure 0)
  let msec ← (if predbits &&& ufpMsec ≠ 0 then BitVec.ofInt 8 <$> msgReadByte else pure 0)
  let vangle ← (if pext2 &&& pext2Predinfo ≠ 0 ∧ predbits &&& ufpViewangle ≠ 0 then
    fteReadVangle bits new.vangle else pure new.vangle)
  let weaponframe ← (if pext2 &&& pext2Predinfo = 0 ∧ predbits &&& ufpWeaponframeOld ≠ 0 then
    fteReadWeaponframe else pure new.weaponframe)
  return (predbits, { new with
    movement := ![forward, side, up], pmovetype := pmovetype, velocity := ![x, y, z], msec := msec
    vangle := vangle, weaponframe := weaponframe })

/-- A float times a small integer. -/
def floatTimes (f : BitVec 32) (k : ℚ) : BitVec 32 := if IsFinite f then ofRat (val f * k) else f

/-- `ANGLE2SHORT`, converted to a short. -/
def angle2short (wildShort : BitVec 32 → BitVec 16) (f : BitVec 32) : BitVec 16 :=
  (toSigned 16 f (trunc (double (val f * double (65536 / 360))))).getD (wildShort f)

/-- View angles that are guessed from the angles that were sent. -/
def fteGuessVangle (c : FteClient) (bits predbits : BitVec 32) (new : EntityState) : EntityState :=
  if predbits &&& ufpViewangle = 0 ∨ c.pext2 &&& pext2Predinfo = 0 then
    { new with
      vangle := ![
        if bits &&& ufAnglesxz ≠ 0 then angle2short c.wildShort
          (floatTimes (new.angles 0) (if bits &&& ufPredinfo ≠ 0 then -3 else -1))
        else new.vangle 0,
        if bits &&& ufAnglesy ≠ 0 then angle2short c.wildShort (new.angles 1) else new.vangle 1,
        if bits &&& ufAnglesxz ≠ 0 then angle2short c.wildShort (new.angles 2)
        else new.vangle 2] }
  else new

/-- What moves, of an entity without prediction. -/
def fteStill (new : EntityState) : EntityState :=
  { new with movement := fun _ => 0, velocity := fun _ => 0, msec := 0 }

def fteReadPredinfo (c : FteClient) (bits : BitVec 32) (new : EntityState) :
    MsgReader EntityState := do
  let (predbits, new) ← (if bits &&& ufPredinfo ≠ 0 then fteReadPrediction c.pext2 bits new
    else pure (0, fteStill new))
  return fteGuessVangle c bits predbits new

/-! ## Model, skin, colours, size -/

/-- Skins are biased for negative contents. -/
def fteWriteSkin (pext2 bits skinnum : BitVec 32) : MsgWriter Unit :=
  if pext2 &&& pext2Lerptime ≠ 0 then msgWriteULEB128 ((skinnum + 64).setWidth 64)
  else if bits &&& uf16bitLerptime ≠ 0 then msgWriteShort skinnum.toInt
  else msgWriteByte skinnum.toInt

def fteReadSkin (pext2 bits : BitVec 32) : MsgReader (BitVec 32) :=
  if pext2 &&& pext2Lerptime ≠ 0 then
    (fun n : BitVec 64 => (n - 64).setWidth 32) <$> msgReadULEB128
  else if bits &&& uf16bitLerptime ≠ 0 then BitVec.ofInt 32 <$> msgReadShort
  else BitVec.ofInt 32 <$> msgReadByte

def fteWriteColormap (pext2 : BitVec 32) (colormap : BitVec 16) : MsgWriter Unit :=
  if pext2 &&& pext2Lerptime ≠ 0 then msgWriteULEB128 (colormap.setWidth 64)
  else msgWriteByte (colormap &&& 0xff).toNat

def fteReadColormap (pext2 : BitVec 32) : MsgReader (BitVec 16) :=
  if pext2 &&& pext2Lerptime ≠ 0 then BitVec.setWidth 16 <$> msgReadULEB128
  else BitVec.ofInt 16 <$> msgReadByte

/-- The 16-bit form of a size. -/
def size16 (sz : BitVec 32) : BitVec 32 :=
  let x := sz &&& 255
  let zd := sz >>> 8 &&& 255
  let zu := (sz >>> 16 &&& 65535) - 32768
  x >>> 3 ||| (zd >>> 3) <<< 5 ||| (zu + 32).sshiftRight 3 <<< 10

/-- `MSG_WriteSize16`. -/
def msgWriteSize16 (sz : BitVec 32) : MsgWriter Unit :=
  if sz = esSolidBsp then msgWriteShort esSolidBsp.toInt
  else if sz ≠ 0 then msgWriteShort (size16 sz).toInt
  else msgWriteShort 0

/-- The size of a 16-bit form. -/
def ofSize16 (ssolid : BitVec 16) : BitVec 32 :=
  let s := ssolid.setWidth 32
  if ssolid = 31 then s
  else
    let solid := ((s >>> 7 &&& 0x1F8) - 32 + 32768) <<< 16
    let solid := solid ||| (s &&& 0x1F) <<< 3
    solid ||| (s &&& 0x3E0) <<< 6

/-- `MSG_ReadSize16`. -/
def msgReadSize16 : MsgReader (BitVec 32) := (fun i => ofSize16 (BitVec.ofInt 16 i)) <$> msgReadShort

/-- `ES_SOLID_HAS_EXTRA_BITS`. -/
def EsSolidHasExtraBits (solid : BitVec 32) : Prop :=
  solid &&& 0x0707 ≠ 0 ∨ (solid >>> 16) - 32768 + 32 &&& 7 ≠ 0

instance (solid : BitVec 32) : Decidable (EsSolidHasExtraBits solid) :=
  inferInstanceAs (Decidable (_ ∨ _))

def fteWriteSolid (pext2 solidsize : BitVec 32) : MsgWriter Unit :=
  if pext2 &&& pext2Newsizeencoding ≠ 0 then
    if solidsize = 0 then msgWriteByte 0
    else if solidsize = esSolidBsp then msgWriteByte 1
    else if solidsize = esSolidHull1 then msgWriteByte 2
    else if solidsize = esSolidHull2 then msgWriteByte 3
    else if ¬EsSolidHasExtraBits solidsize then do
      msgWriteByte 16
      msgWriteSize16 solidsize
    else do
      msgWriteByte 32
      msgWriteLong solidsize.toInt
  else msgWriteSize16 solidsize

def fteReadSolid (pext2 : BitVec 32) : MsgReader (BitVec 32) :=
  if pext2 &&& pext2Newsizeencoding ≠ 0 then do
    let enc ← BitVec.ofInt 8 <$> msgReadByte
    if enc = 0 then return 0
    else if enc = 1 then return esSolidBsp
    else if enc = 2 then return esSolidHull1
    else if enc = 3 then return esSolidHull2
    else if enc = 16 then msgReadSize16
    else if enc = 32 then BitVec.ofInt 32 <$> msgReadLong
    else failure
  else msgReadSize16

/-- The fields from the model to the scale. -/
def fteWriteModel (pext2 bits : BitVec 32) (new : EntityState) : MsgWriter Unit := do
  (if bits &&& ufModel ≠ 0 then fteWriteIndex pext2 bits new.modelindex else pure ())
  (if bits &&& ufSkin ≠ 0 then fteWriteSkin pext2 bits new.skinnum else pure ())
  (if bits &&& ufColormap ≠ 0 then fteWriteColormap pext2 new.colormap else pure ())
  (if bits &&& ufSolid ≠ 0 then fteWriteSolid pext2 new.solidsize else pure ())
  (if bits &&& ufFlags ≠ 0 then fteWriteSmall pext2 new.dpflags else pure ())
  (if bits &&& ufAlpha ≠ 0 then msgWriteByte new.trans.toNat else pure ())
  (if bits &&& ufScale ≠ 0 then msgWriteByte new.scale.toNat else pure ())

def fteReadModel (pext2 bits : BitVec 32) (new : EntityState) : MsgReader EntityState := do
  let modelindex ← (if bits &&& ufModel ≠ 0 then fteReadIndex pext2 bits else pure new.modelindex)
  let skinnum ← (if bits &&& ufSkin ≠ 0 then fteReadSkin pext2 bits else pure new.skinnum)
  let colormap ← (if bits &&& ufColormap ≠ 0 then fteReadColormap pext2 else pure new.colormap)
  let solidsize ← (if bits &&& ufSolid ≠ 0 then fteReadSolid pext2 else pure new.solidsize)
  let dpflags ← (if bits &&& ufFlags ≠ 0 then fteReadSmall pext2 else pure new.dpflags)
  let trans ← (if bits &&& ufAlpha ≠ 0 then BitVec.ofInt 8 <$> msgReadByte else pure new.trans)
  let scale ← (if bits &&& ufScale ≠ 0 then BitVec.ofInt 8 <$> msgReadByte else pure new.scale)
  return { new with
    modelindex := modelindex, skinnum := skinnum, colormap := colormap, solidsize := solidsize
    dpflags := dpflags, trans := trans, scale := scale }

/-! ## Bones -/

/-- The bone data of a packet, and the offset of the next allocation. -/
structure BonePack where
  bonedata : Mem QByte
  bonedatacur : ℕ

/-- `AllocateBoneSpace`, and what is stored there. The offset is kept in an `unsigned int`. -/
def BonePack.allocate (p : BonePack) (xs : List QByte) : BitVec 32 × BonePack :=
  (BitVec.ofNat 32 p.bonedatacur, ⟨p.bonedata.blit p.bonedatacur xs, p.bonedatacur + xs.length⟩)

/-- A short of the bone data. -/
def boneShort (bonedata : Mem QByte) (p : ℕ) : BitVec 16 := decodeShort (bonedata.slice p 2)

/-- The flags of what follows. -/
def boneFlags (pext2 : BitVec 32) (boneptr : Option (Mem QByte)) (new : EntityState) : QByte :=
  0 |> orIf (new.bonecount ≠ 0 ∧ boneptr.isSome) 0x80
    |> orIf (new.basebone ≠ 0 ∨ new.baseframe ≠ 0) 0x40
    |> orIf (pext2 &&& pext2Bonecontrols ≠ 0 ∧ ∃ i, new.bonecontrol i ≠ 0) 0x20
    |> orIf (pext2 &&& pext2Bodygroup ≠ 0 ∧ new.bodygroup ≠ 0) 0x10
    |> orIf (pext2 &&& pext2Framerate ≠ 0 ∧ new.animrate ≠ 0) 0x08

def fteWriteBones (pext2 : BitVec 32) (boneptr : Option (Mem QByte)) (new : EntityState) :
    MsgWriter Unit := do
  let bfl := boneFlags pext2 boneptr new
  msgWriteByte bfl.toNat
  (if bfl &&& 0x80 ≠ 0 then do
    let bonedata ← StateT.lift boneptr
    msgWriteByte new.bonecount.toNat
    (List.range (new.bonecount.toNat * 7)).forM fun i =>
      msgWriteShort (boneShort bonedata (new.boneoffset.toNat + 2 * i)).toInt
    else pure ())
  (if bfl &&& 0x40 ≠ 0 then do
    fteWriteSmall pext2 new.basebone
    if pext2 &&& pext2Lerptime ≠ 0 then msgWriteULEB128 (new.baseframe.setWidth 64)
    else msgWriteShort new.baseframe.toNat
    else pure ())
  (if bfl &&& 0x20 ≠ 0 then
    (List.finRange 5).forM fun i => msgWriteShort (new.bonecontrol i).toInt
    else pure ())
  (if bfl &&& 0x10 ≠ 0 then msgWriteByte new.bodygroup.toNat else pure ())
  (if bfl &&& 0x08 ≠ 0 then msgWriteShort new.animrate.toInt else pure ())

/-- The bytes of shorts that are stored one after the other. -/
def shortsBytes (xs : List (BitVec 16)) : List QByte := xs.flatMap fun x => shortBytes x.toInt

def fteReadBones (pext2 : BitVec 32) (newp : BonePack) (new : EntityState) :
    MsgReader (EntityState × BonePack) := do
  let fl ← BitVec.ofInt 8 <$> msgReadByte
  let (bonecount, boneoffset, newp) ← (if fl &&& 0x80 ≠ 0 then do
      let bonecount ← BitVec.ofInt 8 <$> msgReadByte
      let xs ← (List.range (bonecount.toNat * 7)).mapM fun _ => BitVec.ofInt 16 <$> msgReadShort
      return (bonecount, newp.allocate (shortsBytes xs))
    else pure (0, new.boneoffset, newp))
  let (basebone, baseframe) ← (if fl &&& 0x40 ≠ 0 then do
      let basebone ← fteReadSmall pext2
      let baseframe ← (if pext2 &&& pext2Lerptime ≠ 0 then BitVec.setWidth 16 <$> msgReadULEB128
        else BitVec.ofInt 16 <$> msgReadShort)
      return (basebone, baseframe)
    else pure (0, 0))
  let bonecontrol ← (if fl &&& 0x20 ≠ 0 then
      (fun xs : List (BitVec 16) => fun i : Fin 5 => xs.getD i 0) <$>
        (List.finRange 5).mapM fun _ => BitVec.ofInt 16 <$> msgReadShort
    else pure fun _ => 0)
  let bodygroup ← (if fl &&& 0x10 ≠ 0 then BitVec.ofInt 8 <$> msgReadByte else pure 0)
  let animrate ← (if fl &&& 0x08 ≠ 0 then BitVec.ofInt 16 <$> msgReadShort else pure 0)
  if fl &&& 0x07 ≠ 0 then failure
  else return ({ new with
    bonecount := bonecount, boneoffset := boneoffset, basebone := basebone, baseframe := baseframe
    bonecontrol := bonecontrol, bodygroup := bodygroup, animrate := animrate }, newp)

/-- Bones that are not sent are those of the old packet. -/
def fteCopyBones (olds : Option EntityState) (oldp : Mem QByte) (newp : BonePack)
    (new : EntityState) : Option (EntityState × BonePack) :=
  if new.bonecount ≠ 0 then
    olds.map fun s =>
      let (boneoffset, newp) :=
        newp.allocate (oldp.slice s.boneoffset.toNat (boneSize new.bonecount))
      ({ new with boneoffset := boneoffset }, newp)
  else some (new, newp)

/-! ## The other fields -/

/-- `state->hexen2flags & MLS_MASK` asks for `abslight`. -/
def UsesAbslight (hexen2flags : QByte) : Prop := 6 ≤ hexen2flags &&& 7

instance (hexen2flags : QByte) : Decidable (UsesAbslight hexen2flags) :=
  inferInstanceAs (Decidable (_ ≤ _))

def fteWriteDrawflags (hexen2flags abslight : QByte) : MsgWriter Unit := do
  msgWriteByte hexen2flags.toNat
  (if UsesAbslight hexen2flags then msgWriteByte abslight.toNat else pure ())

def fteReadDrawflags : MsgReader (QByte × QByte) := do
  let hexen2flags ← BitVec.ofInt 8 <$> msgReadByte
  let abslight ← (if UsesAbslight hexen2flags then BitVec.ofInt 8 <$> msgReadByte else pure 0)
  return (hexen2flags, abslight)

/-- `MSGCL_ReadEntity`. -/
def msgclReadEntity (pext2 : BitVec 32) : MsgReader (BitVec 32) :=
  if pext2 &&& pext2Replacementdeltas ≠ 0 then msgReadBigEntity
  else (fun i => (BitVec.ofInt 16 i).setWidth 32) <$> msgReadShort

/-- Indexes of tags are biased, for the portals that have -1. -/
def fteWriteTag (pext2 tagentity : BitVec 32) (tagindex : BitVec 16) : MsgWriter Unit := do
  msgWriteEntity tagentity.toNat
  if pext2 &&& pext2Lerptime ≠ 0 then msgWriteULEB128 (tagindex.setWidth 64 + 1)
  else msgWriteByte (tagindex &&& 0xff).toNat

def fteReadTag (pext2 : BitVec 32) : MsgReader (BitVec 32 × BitVec 16) := do
  let tagentity ← msgclReadEntity pext2
  let tagindex ← (if pext2 &&& pext2Lerptime ≠ 0 then
      (fun n : BitVec 64 => (n - 1).setWidth 16) <$> msgReadULEB128
    else (fun i => if BitVec.ofInt 16 i = 0xff then 0xffff else BitVec.ofInt 16 i) <$> msgReadByte)
  return (tagentity, tagindex)

def fteWriteLight (pext2 : BitVec 32) (new : EntityState) : MsgWriter Unit := do
  msgWriteShort (new.light 0).toNat
  msgWriteShort (new.light 1).toNat
  msgWriteShort (new.light 2).toNat
  msgWriteShort (new.light 3).toNat
  fteWriteSmall pext2 new.lightstyle
  msgWriteByte new.lightpflags.toNat

def fteReadLight (pext2 : BitVec 32) : MsgReader ((Fin 4 → BitVec 16) × QByte × QByte) := do
  let r ← BitVec.ofInt 16 <$> msgReadShort
  let g ← BitVec.ofInt 16 <$> msgReadShort
  let b ← BitVec.ofInt 16 <$> msgReadShort
  let radius ← BitVec.ofInt 16 <$> msgReadShort
  let style ← fteReadSmall pext2
  let pflags ← BitVec.ofInt 8 <$> msgReadByte
  return (![r, g, b, radius], style, pflags)

/-- Without variable lengths, the high bit of the first short announces the second. -/
def fteWriteTraileffect (pext2 : BitVec 32) (trail emit : BitVec 16) : MsgWriter Unit :=
  if pext2 &&& pext2Lerptime ≠ 0 then do
    msgWriteULEB128 (trail.setWidth 64)
    msgWriteULEB128 (emit.setWidth 64)
  else if emit ≠ 0 then do
    msgWriteShort (trail &&& 0x3fff ||| 0x8000).toNat
    msgWriteShort (emit &&& 0x3fff).toNat
  else msgWriteShort (trail &&& 0x3fff).toNat

/-- `countof(cl.particle_ssprecache)`. -/
def maxSsparticlespre : BitVec 16 := 1024

/-- Effects that the client cannot have are none. -/
def ssparticle (n : BitVec 16) : BitVec 16 := if maxSsparticlespre ≤ n then 0 else n

def fteReadTraileffect (pext2 : BitVec 32) : MsgReader (BitVec 16 × BitVec 16) := do
  let (trail, emit) ← (if pext2 &&& pext2Lerptime ≠ 0 then do
      let trail ← BitVec.setWidth 16 <$> msgReadULEB128
      let emit ← BitVec.setWidth 16 <$> msgReadULEB128
      return (trail, emit)
    else do
      let s ← BitVec.ofInt 16 <$> msgReadShort
      let emit ← (if s &&& 0x8000 ≠ 0 then (fun i => BitVec.ofInt 16 i &&& 0x3fff) <$> msgReadShort
        else pure 0)
      return (s &&& 0x3fff, emit))
  return (ssparticle trail, ssparticle emit)

def fteWriteGlow (new : EntityState) : MsgWriter Unit := do
  msgWriteByte new.glowsize.toNat
  msgWriteByte new.glowcolour.toNat
  writeVec (fun x : QByte => msgWriteByte x.toNat) new.glowmod

def fteReadGlow : MsgReader (QByte × QByte × (Fin 3 → QByte)) := do
  let glowsize ← BitVec.ofInt 8 <$> msgReadByte
  let glowcolour ← BitVec.ofInt 8 <$> msgReadByte
  let glowmod ← readVec (BitVec.ofInt 8 <$> msgReadByte)
  return (glowsize, glowcolour, glowmod)

def fteWriteGravitydir (gravitydir : Fin 2 → QByte) : MsgWriter Unit := do
  msgWriteByte (gravitydir 0).toNat
  msgWriteByte (gravitydir 1).toNat

def fteReadGravitydir : MsgReader (Fin 2 → QByte) := do
  let x ← BitVec.ofInt 8 <$> msgReadByte
  let y ← BitVec.ofInt 8 <$> msgReadByte
  return ![x, y]

/-- The fields from the flags of Hexen 2 on. -/
def fteWriteLast (pext2 bits : BitVec 32) (new : EntityState) : MsgWriter Unit := do
  (if bits &&& ufDrawflags ≠ 0 then fteWriteDrawflags new.hexen2flags new.abslight else pure ())
  (if bits &&& ufTaginfo ≠ 0 then fteWriteTag pext2 new.tagentity new.tagindex else pure ())
  (if bits &&& ufLight ≠ 0 then fteWriteLight pext2 new else pure ())
  (if bits &&& ufTraileffect ≠ 0 then
    fteWriteTraileffect pext2 new.traileffectnum new.emiteffectnum else pure ())
  (if bits &&& ufColormod ≠ 0 then writeVec (fun x : QByte => msgWriteByte x.toNat) new.colormod
    else pure ())
  (if bits &&& ufGlow ≠ 0 then fteWriteGlow new else pure ())
  (if bits &&& ufFatness ≠ 0 then msgWriteChar new.fatness.toInt else pure ())
  (if bits &&& ufModelindex2 ≠ 0 then fteWriteIndex pext2 bits new.modelindex2 else pure ())
  (if bits &&& ufGravitydir ≠ 0 then fteWriteGravitydir new.gravitydir else pure ())

def fteReadLast (pext2 bits : BitVec 32) (new : EntityState) : MsgReader EntityState := do
  let (hexen2flags, abslight) ← (if bits &&& ufDrawflags ≠ 0 then fteReadDrawflags
    else pure (new.hexen2flags, new.abslight))
  let (tagentity, tagindex) ← (if bits &&& ufTaginfo ≠ 0 then fteReadTag pext2
    else pure (new.tagentity, new.tagindex))
  let (light, lightstyle, lightpflags) ← (if bits &&& ufLight ≠ 0 then fteReadLight pext2
    else pure (new.light, new.lightstyle, new.lightpflags))
  let (trail, emit) ← (if bits &&& ufTraileffect ≠ 0 then fteReadTraileffect pext2
    else pure (new.traileffectnum, new.emiteffectnum))
  let colormod ← (if bits &&& ufColormod ≠ 0 then readVec (BitVec.ofInt 8 <$> msgReadByte)
    else pure new.colormod)
  let (glowsize, glowcolour, glowmod) ← (if bits &&& ufGlow ≠ 0 then fteReadGlow
    else pure (new.glowsize, new.glowcolour, new.glowmod))
  let fatness ← (if bits &&& ufFatness ≠ 0 then BitVec.ofInt 8 <$> msgReadByte else pure new.fatness)
  let modelindex2 ← (if bits &&& ufModelindex2 ≠ 0 then fteReadIndex pext2 bits
    else pure new.modelindex2)
  let gravitydir ← (if bits &&& ufGravitydir ≠ 0 then fteReadGravitydir else pure new.gravitydir)
  if bits &&& ufUnused1 ≠ 0 then failure
  else return { new with
    hexen2flags := hexen2flags, abslight := abslight, tagentity := tagentity, tagindex := tagindex
    light := light, lightstyle := lightstyle, lightpflags := lightpflags, traileffectnum := trail
    emiteffectnum := emit, colormod := colormod, glowsize := glowsize, glowcolour := glowcolour
    glowmod := glowmod, fatness := fatness, modelindex2 := modelindex2, gravitydir := gravitydir }

/-! ## The message -/

/-- The bits that are sent for the change bits `bits`. -/
def fteSentBits (pext2 bits : BitVec 32) (ahead : Bool) (new : EntityState) : BitVec 32 :=
  fteExtendBits (fteWideBits pext2 ahead new (fteServerBits pext2 bits))

/-- The message of the sent bits `bits` and the flags of the server `predbits`. -/
def fteWriteMessage (prim : Netprim) (pext2 ezext1 bits predbits : BitVec 32) (physicstime : ℚ)
    (boneptr : Option (Mem QByte)) (new : EntityState) : MsgWriter Unit := do
  fteWriteBits bits
  fteWriteFirst prim pext2 ezext1 bits physicstime new
  (if bits &&& ufPredinfo ≠ 0 then
    fteWritePrediction pext2 bits (predbits ||| svfteDeltaPredCalcBits none new) new else pure ())
  fteWriteModel pext2 bits new
  (if bits &&& ufBonedata ≠ 0 then fteWriteBones pext2 boneptr new else pure ())
  fteWriteLast pext2 bits new

/-- `SVFTE_WriteUpdate`. -/
def svfteWriteUpdate (bits : BitVec 32) (new : EntityState) (pext2 ezext1 : BitVec 32)
    (physicstime : ℚ) (boneptr : Option (Mem QByte)) : MsgWriter Unit := do
  let prim := (← get).prim
  fteWriteMessage prim pext2 ezext1
    (fteSentBits pext2 bits (lerpAhead new.lerpend physicstime) new) (fteServerPredbits pext2 bits)
    physicstime boneptr new

/-- The state that an update starts from. -/
def fteBase (bits : BitVec 32) (olds : Option EntityState) (baseline : EntityState) : EntityState :=
  if bits &&& ufReset ≠ 0 then baseline else olds.getD nullEntity

/-- The fields of an update, from a buffer with the sizes `prim`. -/
def fteReadMessage (c : FteClient) (prim : Netprim) (bits : BitVec 32) (olds : Option EntityState)
    (oldp : Mem QByte) (newp : BonePack) (new : EntityState) :
    MsgReader (EntityState × BonePack) := do
  let new ← fteReadFirst c prim bits new
  let new ← fteReadPredinfo c bits new
  let new ← fteReadModel c.pext2 bits new
  let (new, newp) ← (if bits &&& ufBonedata ≠ 0 then fteReadBones c.pext2 newp new
    else StateT.lift (fteCopyBones olds oldp newp new))
  let new ← fteReadLast c.pext2 bits new
  return (new, newp)

/-- `CLFTE_ReadDelta`. -/
def clfteReadDelta (c : FteClient) (entnum : BitVec 32) (olds : Option EntityState)
    (baseline : EntityState) (oldp : Mem QByte) (newp : BonePack) :
    MsgReader (EntityState × BonePack) := do
  let prim := (← get).msgReadmsg.prim
  let bits ← fteReadBits
  fteReadMessage c prim bits olds oldp newp
    { fteBase bits olds baseline with number := entnum, sequence := c.incomingSequence }

end FteQuake
