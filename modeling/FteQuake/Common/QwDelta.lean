import FteQuake.Common.EntityState

/-!
# QuakeWorld entity deltas

`SVQW_WriteDelta` of `sv_ents.c` and `CLQW_ParseDelta` of `cl_ents.c`: a word with an entity number
and change bits, up to three more bytes of bits, and the changed fields. The writer returns the
state it leaves in `*to`, which the next delta starts from. The two states are `old` and `new` here
(`from` is a reserved word, and so is `to`); an `old` that points at the baseline of no entity has
been replaced before.

Main result: `svqwWriteDelta_parseDelta`. The client takes exactly the bytes that were written and
gets the state the writer left, in every field the protocol extensions carry, except that

* a coordinate or an angle that is sent arrives as its wire format holds it;
* a client without `PEXT_SPAWNSTATIC2` has baselines without effects;

when the new state is `QwSendable`: its changes fit in the fields of the message, and are not among
those the change bits or the client miss.
-/

namespace FteQuake

open StreamProgram BitFlags BinaryFloat MsgState Sizebuf Option RoundTrip
open BitVec (and_zero eq_of_toNat_eq le_def lt_def ofInt_natCast ofInt_toInt ofNat_toNat or_zero setWidth_eq
  toNat_and toNat_or toNat_setWidth)

/-! ## Flags -/

def uOrigin1 : BitVec 32 := 1 <<< 9
def uAngle2 : BitVec 32 := 1 <<< 12
def uFrame : BitVec 32 := 1 <<< 13
def uRemove : BitVec 32 := 1 <<< 14
def uMorebits : BitVec 32 := 1 <<< 15
def uAngle1 : BitVec 32 := 1 <<< 0
def uAngle3 : BitVec 32 := 1 <<< 1
def uModel : BitVec 32 := 1 <<< 2
def uColormap : BitVec 32 := 1 <<< 3
def uSkin : BitVec 32 := 1 <<< 4
def uEffects : BitVec 32 := 1 <<< 5
def uEvenmore : BitVec 32 := 1 <<< 7

def uScale : BitVec 32 := 1 <<< 0
def uTrans : BitVec 32 := 1 <<< 1
def uFatness : BitVec 32 := 1 <<< 2
def uModeldbl : BitVec 32 := 1 <<< 3
def uEntitydbl : BitVec 32 := 1 <<< 5
def uEntitydbl2 : BitVec 32 := 1 <<< 6
def uYetmore : BitVec 32 := 1 <<< 7
def uDrawflags : BitVec 32 := 1 <<< 8
def uAbslight : BitVec 32 := 1 <<< 9
def uColourmod : BitVec 32 := 1 <<< 10
def uDpflags : BitVec 32 := 1 <<< 11
def uTaginfo : BitVec 32 := 1 <<< 12
def uLight : BitVec 32 := 1 <<< 13
def uEffects16 : BitVec 32 := 1 <<< 14

def pextScale : BitVec 32 := 0x00000002
def pextTrans : BitVec 32 := 0x00000008
def pextFatness : BitVec 32 := 0x00000100
def pextModeldbl : BitVec 32 := 0x00001000
def pextEntitydbl : BitVec 32 := 0x00002000
def pextEntitydbl2 : BitVec 32 := 0x00004000
def pextColourmod : BitVec 32 := 0x00080000
def pextHexen2 : BitVec 32 := 0x00200000
def pextSpawnstatic2 : BitVec 32 := 0x00400000
def pextSetattachment : BitVec 32 := 0x08000000
def pextDpflags : BitVec 32 := 0x80000000

/-- The extensions with which the client reads a byte of more bits. -/
def pextMorebits : BitVec 32 :=
  pextScale ||| pextTrans ||| pextFatness ||| pextHexen2 ||| pextColourmod ||| pextDpflags |||
    pextModeldbl ||| pextEntitydbl ||| pextEntitydbl2

/-- `RENDER_STEP`. -/
def renderStep : QByte := 1

/-- `RENDER_GLOWTRAIL`. -/
def renderGlowtrail : QByte := 2

/-! ## The writer -/

/-- The encoding of a coordinate `t`, and whether it differs from `f`. -/
def qwCoord (type : QByte) (f t : BitVec 32) : Option (BitVec 32 × Bool) :=
  if type ≠ coordtypeFloat32 then do
    let c ← msgToCoord t type
    let c' ← msgToCoord f type
    return (c, c' ≠ c)
  else do
    let c ← msgToCoord t type
    return (c, Differ t f)

/-- The encoding of an angle `t`, and whether it differs from that of `f`. -/
def qwAngle (anglesize : ℕ) (f t : BitVec 32) : Option (BitVec 32 × Bool) := do
  let c ← msgToAngle t anglesize
  let c' ← msgToAngle f anglesize
  return (c, c' ≠ c)

/-- The encoded vectors of an entity, and which of their components are sent. -/
structure QwVectors where
  origin : Fin 3 → BitVec 32 × Bool
  angles : Fin 3 → BitVec 32 × Bool

/-- `f[0]`, `f[1]`, `f[2]`, when all three are defined. -/
def vecM {α : Type} (f : Fin 3 → Option α) : Option (Fin 3 → α) := do
  let a ← f 0
  let b ← f 1
  let c ← f 2
  return ![a, b, c]

def qwVectors (prim : Netprim) (ezext : BitVec 32) (old new : EntityState) : Option QwVectors := do
  let origin ← vecM fun i => qwCoord (qwCoordtype prim ezext) (old.origin i) (new.origin i)
  let angles ← vecM fun i => qwAngle prim.anglesize.toNat (old.angles i) (new.angles i)
  return ⟨origin, angles⟩

/-- The vectors of `*to` that are not sent keep the values of `*from`, but for coordinates that are
sent as floats. -/
def qwKeep (coordtype : QByte) (v : QwVectors) (old new : EntityState) : EntityState :=
  { new with
    origin := fun i =>
      if coordtype ≠ coordtypeFloat32 ∧ (v.origin i).2 = false then old.origin i else new.origin i
    angles := fun i => if (v.angles i).2 = false then old.angles i else new.angles i }

/-- A glow that changes leaves a trail. -/
def qwGlowtrail (old new : EntityState) : EntityState :=
  { new with
    dpflags := if new.glowsize ≠ old.glowsize then new.dpflags ||| renderGlowtrail else new.dpflags }

/-- The effects of the old state that new ones are compared with. -/
def qwFromeffects (protext : BitVec 32) (force : Bool) (old : EntityState) : BitVec 32 :=
  if force ∧ protext &&& pextSpawnstatic2 = 0 then 0 else old.effects

/-- `from->colormod` and `to->colormod` differ. -/
def ColormodDiffers (old new : EntityState) : Prop :=
  new.colormod 0 ≠ old.colormod 0 ∨ new.colormod 1 ≠ old.colormod 1 ∨
    new.colormod 2 ≠ old.colormod 2

instance (old new : EntityState) : Decidable (ColormodDiffers old new) :=
  inferInstanceAs (Decidable (_ ∨ _ ∨ _))

/-- The colours of the lights differ, or their styles. -/
def LightDiffers (old new : EntityState) : Prop :=
  new.light 0 ≠ old.light 0 ∨ new.light 1 ≠ old.light 1 ∨ new.light 2 ≠ old.light 2 ∨
    new.light 3 ≠ old.light 3 ∨ new.lightstyle ≠ old.lightstyle

instance (old new : EntityState) : Decidable (LightDiffers old new) :=
  inferInstanceAs (Decidable (_ ∨ _ ∨ _ ∨ _ ∨ _))

/-- `bits`, before the entity number is looked at. -/
def qwBits (protext : BitVec 32) (force : Bool) (v : QwVectors) (old new : EntityState) :
    BitVec 32 :=
  0 |> orIf ((v.origin 0).2 = true) (uOrigin1 <<< 0)
    |> orIf ((v.origin 1).2 = true) (uOrigin1 <<< 1)
    |> orIf ((v.origin 2).2 = true) (uOrigin1 <<< 2)
    |> orIf ((v.angles 0).2 = true) uAngle1
    |> orIf ((v.angles 1).2 = true) uAngle2
    |> orIf ((v.angles 2).2 = true) uAngle3
    |> orIf (new.colormap ≠ old.colormap) uColormap
    |> orIf (new.skinnum ≠ old.skinnum) uSkin
    |> orIf (new.frame ≠ old.frame) uFrame
    |> orIf (new.effects &&& 0x00ff ≠ qwFromeffects protext force old &&& 0x00ff) uEffects
    -- an index above 512 is sent with `U_MODELDBL` alone
    |> orIf (new.modelindex ≠ old.modelindex ∧ ¬512 < new.modelindex) uModel

/-- `evenmorebits`, before the entity number is looked at. The light flags are compared with the
old light style. -/
def qwMorebits (protext : BitVec 32) (force : Bool) (old new : EntityState) : BitVec 32 :=
  0 |> orIf (new.effects &&& 0xff00 ≠ qwFromeffects protext force old &&& 0xff00 ∧
        protext &&& pextDpflags ≠ 0) uEffects16
    |> orIf (new.modelindex ≠ old.modelindex ∧ 255 < new.modelindex ∧ protext &&& pextModeldbl ≠ 0)
      uModeldbl
    |> orIf (new.scale ≠ old.scale ∧ protext &&& pextScale ≠ 0) uScale
    |> orIf (new.trans ≠ old.trans ∧ protext &&& pextTrans ≠ 0) uTrans
    |> orIf (new.fatness ≠ old.fatness ∧ protext &&& pextFatness ≠ 0) uFatness
    |> orIf (new.hexen2flags ≠ old.hexen2flags ∧ protext &&& pextHexen2 ≠ 0) uDrawflags
    |> orIf (new.abslight ≠ old.abslight ∧ protext &&& pextHexen2 ≠ 0) uAbslight
    |> orIf (ColormodDiffers old new ∧ protext &&& pextColourmod ≠ 0) uColourmod
    |> orIf (new.dpflags ≠ old.dpflags ∧ protext &&& pextDpflags ≠ 0) uDpflags
    |> orIf ((new.tagentity ≠ old.tagentity ∨ new.tagindex ≠ old.tagindex) ∧
        protext &&& pextSetattachment ≠ 0) uTaginfo
    |> orIf ((LightDiffers old new ∨ new.lightpflags ≠ old.lightstyle) ∧
        protext &&& pextDpflags ≠ 0) uLight

/-- The bits of a large entity number. -/
def qwNumberBits (number : BitVec 32) (morebits : BitVec 32) : BitVec 32 :=
  morebits |> orIf (512 ≤ number ∧ number < 1024 ∨ 1024 + 512 ≤ number) uEntitydbl
    |> orIf (1024 ≤ number) uEntitydbl2

/-- The bits that announce more bits. -/
def qwMoreFlags (morebits : BitVec 32) : BitVec 32 :=
  orIf (morebits &&& 0xff00 ≠ 0) uYetmore morebits

def qwFlags (morebits bits : BitVec 32) : BitVec 32 :=
  let bits := orIf (morebits &&& 0x00ff ≠ 0) uEvenmore bits
  orIf (bits &&& 511 ≠ 0) uMorebits bits

/-- The word at the start of a delta. -/
def qwWord (number bits : BitVec 32) : BitVec 32 := number &&& 511 ||| bits &&& ~~~511

/-- The bits that are not in the word. -/
def qwWriteBits (bits morebits : BitVec 32) : MsgWriter Unit := do
  (if bits &&& uMorebits ≠ 0 then msgWriteByte (bits &&& 255).toNat else pure ())
  (if bits &&& uEvenmore ≠ 0 then msgWriteByte (morebits &&& 255).toNat else pure ())
  (if morebits &&& uYetmore ≠ 0 then msgWriteByte (morebits >>> 8 &&& 255).toNat else pure ())

/-- The vector components of a delta, in the order of the message. -/
def qwWriteVectors (bits : BitVec 32) (coordtype : QByte) (anglesize : ℕ) (v : QwVectors) :
    MsgWriter Unit := do
  let coord (i : Fin 3) := szWrite (coordBytes (v.origin i).1 (coordSize coordtype))
  let angle (i : Fin 3) := szWrite (coordBytes (v.angles i).1 anglesize)
  (if bits &&& uOrigin1 <<< 0 ≠ 0 then coord 0 else pure ())
  (if bits &&& uAngle1 ≠ 0 then angle 0 else pure ())
  (if bits &&& uOrigin1 <<< 1 ≠ 0 then coord 1 else pure ())
  (if bits &&& uAngle2 ≠ 0 then angle 1 else pure ())
  (if bits &&& uOrigin1 <<< 2 ≠ 0 then coord 2 else pure ())
  (if bits &&& uAngle3 ≠ 0 then angle 2 else pure ())

/-- The scalar fields before the vectors. -/
def qwWriteScalars (bits morebits : BitVec 32) (new : EntityState) : MsgWriter Unit := do
  (if bits &&& uModel ≠ 0 then msgWriteByte (new.modelindex &&& 255).toNat
    else if morebits &&& uModeldbl ≠ 0 then msgWriteShort new.modelindex.toNat else pure ())
  (if bits &&& uFrame ≠ 0 then msgWriteByte new.frame.toNat else pure ())
  (if bits &&& uColormap ≠ 0 then msgWriteByte new.colormap.toNat else pure ())
  (if bits &&& uSkin ≠ 0 then msgWriteByte (new.skinnum &&& 0xff).toNat else pure ())
  (if bits &&& uEffects ≠ 0 then msgWriteByte (new.effects &&& 0x00ff).toNat else pure ())

/-- The fields of the protocol extensions. -/
def qwWriteExtended (morebits : BitVec 32) (new : EntityState) : MsgWriter Unit := do
  (if morebits &&& uScale ≠ 0 then msgWriteByte new.scale.toNat else pure ())
  (if morebits &&& uTrans ≠ 0 then msgWriteByte new.trans.toNat else pure ())
  (if morebits &&& uFatness ≠ 0 then msgWriteChar new.fatness.toInt else pure ())
  (if morebits &&& uDrawflags ≠ 0 then msgWriteByte new.hexen2flags.toNat else pure ())
  (if morebits &&& uAbslight ≠ 0 then msgWriteByte new.abslight.toNat else pure ())
  (if morebits &&& uColourmod ≠ 0 then writeVec (fun x : QByte => msgWriteByte x.toNat) new.colormod
    else pure ())
  (if morebits &&& uDpflags ≠ 0 then msgWriteByte new.dpflags.toNat else pure ())
  (if morebits &&& uTaginfo ≠ 0 then do
    msgWriteEntity new.tagentity.toNat
    msgWriteShort new.tagindex.toNat
    else pure ())
  (if morebits &&& uLight ≠ 0 then do
    msgWriteShort (new.light 0).toNat
    msgWriteShort (new.light 1).toNat
    msgWriteShort (new.light 2).toNat
    msgWriteShort (new.light 3).toNat
    msgWriteByte new.lightstyle.toNat
    msgWriteByte new.lightpflags.toNat
    else pure ())
  (if morebits &&& uEffects16 ≠ 0 then msgWriteByte ((new.effects &&& 0xff00) >>> 8).toNat
    else pure ())

/-- The message of a delta. -/
def qwWriteMessage (coordtype : QByte) (anglesize : ℕ) (bits morebits : BitVec 32) (v : QwVectors)
    (new : EntityState) : MsgWriter Unit := do
  msgWriteShort (qwWord new.number bits).toNat
  qwWriteBits bits morebits
  qwWriteScalars bits morebits new
  qwWriteVectors bits coordtype anglesize v
  qwWriteExtended morebits new

/-- `SVQW_WriteDelta`, returning the state it leaves in `*to`. -/
def svqwWriteDelta (old new : EntityState) (force : Bool) (protext ezext : BitVec 32) :
    MsgWriter EntityState := fun msg =>
  let coordtype := qwCoordtype msg.prim ezext
  (qwVectors msg.prim ezext old new).bind fun v =>
    let new := qwKeep coordtype v old new
    if new.modelindex ≠ old.modelindex ∧ 255 < new.modelindex ∧ protext &&& pextModeldbl = 0 then
      some (new, msg)
    else
      let new := qwGlowtrail old new
      let bits := qwBits protext force v old new
      let morebits := qwMorebits protext force old new
      -- not enough space: the entity is not sent this time
      if msg.cursize + 40 > msg.maxsize then some (old, msg)
      else if new.number = 0 then none
      else if bits = 0 ∧ morebits = 0 ∧ force = false then some (new, msg)
      else if 2048 ≤ new.number then some (new, msg)
      else
        let morebits := qwMoreFlags (qwNumberBits new.number morebits)
        let bits := qwFlags morebits bits
        if qwWord new.number bits &&& uRemove ≠ 0 then none
        else ((qwWriteMessage coordtype msg.prim.anglesize.toNat bits morebits v new).run msg).map
          fun r => (new, r.2)

/-! ## The reader -/

/-- The bits behind the word of a delta: `bits` and `morebits`. -/
def qwReadBits (protext bits : BitVec 32) : MsgReader (BitVec 32 × BitVec 32) := do
  let bits := bits &&& ~~~511
  let bits ← (if bits &&& uMorebits ≠ 0 then (fun i => bits ||| BitVec.ofInt 32 i) <$> msgReadByte
    else pure bits)
  let morebits ← (if bits &&& uEvenmore ≠ 0 ∧ protext &&& pextMorebits ≠ 0 then
    BitVec.ofInt 32 <$> msgReadByte else pure 0)
  let morebits ← (if morebits &&& uYetmore ≠ 0 then
    (fun i => morebits ||| BitVec.ofInt 32 i <<< 8) <$> msgReadByte else pure morebits)
  return (bits, morebits)

/-- The number of the entity, of which the word has the low bits. -/
def qwNumber (protext word morebits : BitVec 32) : BitVec 32 :=
  let number := word &&& 511
  let number := if morebits &&& uEntitydbl ≠ 0 ∧ protext &&& pextEntitydbl ≠ 0 then number + 512
    else number
  if morebits &&& uEntitydbl2 ≠ 0 ∧ protext &&& pextEntitydbl2 ≠ 0 then number + 1024 else number

def qwReadModel (protext bits morebits : BitVec 32) (old : BitVec 16) : MsgReader (BitVec 16) :=
  if bits &&& uModel ≠ 0 then
    (fun i => if morebits &&& uModeldbl ≠ 0 ∧ protext &&& pextModeldbl ≠ 0 then
      BitVec.ofInt 16 i + 256 else BitVec.ofInt 16 i) <$> msgReadByte
  else if morebits &&& uModeldbl ≠ 0 ∧ protext &&& pextModeldbl ≠ 0 then
    BitVec.ofInt 16 <$> msgReadShort
  else pure old

/-- The last 32 skins are contents values. -/
def qwSkin (i : Int) : BitVec 32 :=
  let skinnum := BitVec.ofInt 32 i
  if skinnum ≥ 256 - 32 then (skinnum.setWidth 8).signExtend 32 else skinnum

/-- The scalar fields before the vectors. -/
def qwReadScalars (protext bits morebits : BitVec 32) (new : EntityState) :
    MsgReader EntityState := do
  let modelindex ← qwReadModel protext bits morebits new.modelindex
  let frame ← (if bits &&& uFrame ≠ 0 then BitVec.ofInt 16 <$> msgReadByte else pure new.frame)
  let colormap ← (if bits &&& uColormap ≠ 0 then BitVec.ofInt 16 <$> msgReadByte
    else pure new.colormap)
  let skinnum ← (if bits &&& uSkin ≠ 0 then qwSkin <$> msgReadByte else pure new.skinnum)
  let effects ← (if bits &&& uEffects ≠ 0 then
    (fun i => new.effects &&& 0xff00 ||| BitVec.ofInt 32 i) <$> msgReadByte else pure new.effects)
  return { new with
    modelindex := modelindex, frame := frame, colormap := colormap, skinnum := skinnum
    effects := effects }

/-- The vector components. -/
def qwReadVectors (bits : BitVec 32) (coordtype : QByte) (anglesize : ℕ) (new : EntityState) :
    MsgReader EntityState := do
  let x ← (if bits &&& uOrigin1 <<< 0 ≠ 0 then msgReadCoord coordtype else pure (new.origin 0))
  let a ← (if bits &&& uAngle1 ≠ 0 then msgReadAngle anglesize else pure (new.angles 0))
  let y ← (if bits &&& uOrigin1 <<< 1 ≠ 0 then msgReadCoord coordtype else pure (new.origin 1))
  let b ← (if bits &&& uAngle2 ≠ 0 then msgReadAngle anglesize else pure (new.angles 1))
  let z ← (if bits &&& uOrigin1 <<< 2 ≠ 0 then msgReadCoord coordtype else pure (new.origin 2))
  let c ← (if bits &&& uAngle3 ≠ 0 then msgReadAngle anglesize else pure (new.angles 2))
  return { new with origin := ![x, y, z], angles := ![a, b, c], solidsize := esSolidBsp }

/-- The attachment. The client reads the entity as a short. -/
def qwReadTag : MsgReader (BitVec 32 × BitVec 16) := do
  let entity ← msgReadShort
  let index ← msgReadShort
  return (BitVec.ofInt 32 entity, BitVec.ofInt 16 index)

def qwReadLight : MsgReader ((Fin 4 → BitVec 16) × QByte × QByte) := do
  let r ← BitVec.ofInt 16 <$> msgReadShort
  let g ← BitVec.ofInt 16 <$> msgReadShort
  let b ← BitVec.ofInt 16 <$> msgReadShort
  let radius ← BitVec.ofInt 16 <$> msgReadShort
  let style ← BitVec.ofInt 8 <$> msgReadByte
  let pflags ← BitVec.ofInt 8 <$> msgReadByte
  return (![r, g, b, radius], style, pflags)

/-- The fields of the protocol extensions. -/
def qwReadExtended (protext morebits : BitVec 32) (new : EntityState) : MsgReader EntityState := do
  let scale ← (if morebits &&& uScale ≠ 0 ∧ protext &&& pextScale ≠ 0 then
    BitVec.ofInt 8 <$> msgReadByte else pure new.scale)
  let trans ← (if morebits &&& uTrans ≠ 0 ∧ protext &&& pextTrans ≠ 0 then
    BitVec.ofInt 8 <$> msgReadByte else pure new.trans)
  let fatness ← (if morebits &&& uFatness ≠ 0 ∧ protext &&& pextFatness ≠ 0 then
    BitVec.ofInt 8 <$> msgReadChar else pure new.fatness)
  let hexen2flags ← (if morebits &&& uDrawflags ≠ 0 ∧ protext &&& pextHexen2 ≠ 0 then
    BitVec.ofInt 8 <$> msgReadByte else pure new.hexen2flags)
  let abslight ← (if morebits &&& uAbslight ≠ 0 ∧ protext &&& pextHexen2 ≠ 0 then
    BitVec.ofInt 8 <$> msgReadByte else pure new.abslight)
  let colormod ← (if morebits &&& uColourmod ≠ 0 ∧ protext &&& pextColourmod ≠ 0 then
    readVec (BitVec.ofInt 8 <$> msgReadByte) else pure new.colormod)
  let dpflags ← (if morebits &&& uDpflags ≠ 0 then BitVec.ofInt 8 <$> msgReadByte
    else pure new.dpflags)
  let dpflags := if protext &&& pextDpflags = 0 ∧ new.frame ≠ 0 then dpflags ||| renderStep
    else dpflags
  let tag ← (if morebits &&& uTaginfo ≠ 0 then qwReadTag else pure (new.tagentity, new.tagindex))
  let light ← (if morebits &&& uLight ≠ 0 then qwReadLight
    else pure (new.light, new.lightstyle, new.lightpflags))
  let effects ← (if morebits &&& uEffects16 ≠ 0 then
    (fun i => new.effects &&& (0x00ff : BitVec 32) ||| BitVec.ofInt 32 i <<< 8) <$> msgReadByte
    else pure new.effects)
  return { new with
    scale := scale, trans := trans, fatness := fatness, hexen2flags := hexen2flags
    abslight := abslight, colormod := colormod, dpflags := dpflags, tagentity := tag.1
    tagindex := tag.2, light := light.1, lightstyle := light.2.1, lightpflags := light.2.2
    effects := effects }

/-- `CLQW_ParseDelta`, given the word at the start of the delta. -/
def clqwParseDelta (protext ezext incomingSequence : BitVec 32) (old : EntityState)
    (word : BitVec 32) : MsgReader EntityState := do
  let prim := (← get).msgReadmsg.prim
  let coordtype := if ezext &&& ezpext1Floatentcoords ≠ 0 then coordtypeFloat32 else prim.coordtype
  let (bits, morebits) ← qwReadBits protext word
  let new := { old with number := qwNumber protext word morebits, sequence := incomingSequence }
  let new ← qwReadScalars protext bits morebits new
  let new ← qwReadVectors bits coordtype prim.anglesize.toNat new
  qwReadExtended protext morebits new

/-- The client's loop over the entities of a packet reads the word and then the delta. -/
def qwParseWordDelta (protext ezext incomingSequence : BitVec 32) (old : EntityState) :
    MsgReader EntityState := do
  let word ← (fun s => (BitVec.ofInt 16 s).setWidth 32) <$> msgReadShort
  clqwParseDelta protext ezext incomingSequence old word

/-! ## The bits of a delta -/

/-- Bits that fit a delta: no `U_UNUSABLE`, no `U_REMOVE`, and the flags that announce more. -/
structure QwBitsReady (bits morebits : BitVec 32) : Prop where
  low : bits &&& 511 = bits &&& 255
  remove : bits &&& uRemove = 0
  lt : bits.toNat < 2 ^ 16
  lt_more : morebits.toNat < 2 ^ 16
  more : bits &&& uMorebits ≠ 0 ↔ bits &&& 511 ≠ 0
  evenmore : bits &&& uEvenmore ≠ 0 ↔ morebits &&& 255 ≠ 0
  yetmore : morebits &&& uYetmore ≠ 0 ↔ morebits &&& 0xff00 ≠ 0

variable {bits f morebits protext : BitVec 32} {force : Bool} {new old : EntityState}
  {v : QwVectors}

variable (number : BitVec 32)

theorem toNat_qwWord_lt (h : bits.toNat < 2 ^ 16) :
    (qwWord number bits).toNat < 2 ^ 16 := by
  rw [qwWord, toNat_or]
  apply Nat.or_lt_two_pow
  · rw [toNat_and]
    exact lt_of_le_of_lt Nat.and_le_right (by decide)
  · rw [toNat_and]
    exact lt_of_le_of_lt Nat.and_le_left h

theorem qwWord_roundTrip (h : bits.toNat < 2 ^ 16) :
    RoundTrip (msgWriteShort (qwWord number bits).toNat)
      ((fun s => (BitVec.ofInt 16 s).setWidth 32) <$> msgReadShort) (qwWord number bits) := by
  have e := (msgShort_roundTrip (qwWord number bits).toNat).map fun s => (BitVec.ofInt 16 s).setWidth 32
  rw [ofInt_toInt, ofInt_natCast] at e
  have e' : (BitVec.ofNat 16 (qwWord number bits).toNat).setWidth 32 = qwWord number bits := by
    apply eq_of_toNat_eq
    have := toNat_qwWord_lt number h
    simp only [toNat_setWidth, BitVec.toNat_ofNat]
    omega
  rwa [e'] at e

/-- A word of 16 bits from its bytes. -/
theorem low_or_high {x : BitVec 32} (h : x.toNat < 2 ^ 16) :
    x &&& (255 : BitVec 32) ||| ((x >>> 8 &&& 255) : BitVec 32) <<< 8 = x := by
  apply eq_of_toNat_eq
  rw [toNat_or, BitVec.toNat_shiftLeft, toNat_and_255, toNat_and_255,
    BitVec.toNat_ushiftRight, Nat.shiftLeft_eq, Nat.shiftRight_eq_div_pow, Nat.or_comm]
  have e : x.toNat / 2 ^ 8 % 2 ^ 8 * 2 ^ 8 % 2 ^ 32 = 2 ^ 8 * (x.toNat / 2 ^ 8) := by omega
  rw [e, ← Nat.two_pow_add_eq_or_of_lt (by omega)]
  omega

/-- **The bits come back.** -/
theorem qwBits_roundTrip (h : QwBitsReady bits morebits) (hgate : morebits ≠ 0 → protext &&& pextMorebits ≠ 0) :
    RoundTrip (qwWriteBits bits morebits) (qwReadBits protext (qwWord number bits))
      (bits, morebits) := by
  have hflag (f : BitVec 32) (hf : ~~~511 &&& f = f) : bits &&& ~~~511 &&& f = bits &&& f := by
    rw [BitVec.and_assoc, hf]
  unfold qwWriteBits qwReadBits
  dsimp only
  rw [qwWord, merge_and_not, hflag uMorebits (by decide)]
  have hbits : RoundTrip (if bits &&& uMorebits ≠ 0 then msgWriteByte (bits &&& 255).toNat
      else pure ()) (if bits &&& uMorebits ≠ 0 then
        (fun i => bits &&& ~~~511 ||| BitVec.ofInt 32 i) <$> msgReadByte
      else pure (bits &&& ~~~511)) bits := by
    refine field (fun _ => ?_) fun hm => ?_
    · have e := (maskByte_roundTrip (x := bits &&& 255) (by rw [toNat_and_255]; omega)).map_comp
        fun i => bits &&& ~~~511 ||| i
      rwa [← h.low, and_not_or_and, h.low] at e
    · have h0 : bits &&& 511 = 0#32 := not_not.1 fun e => hm (h.more.2 e)
      have e := and_not_or_and bits 511
      rwa [h0, or_zero] at e
  refine hbits.bind ?_
  -- without `U_EVENMORE` there are no more bits, and with it the client reads them
  have hmore : RoundTrip (if bits &&& uEvenmore ≠ 0 then msgWriteByte (morebits &&& 255).toNat
      else pure ()) (if bits &&& uEvenmore ≠ 0 ∧ protext &&& pextMorebits ≠ 0 then
        BitVec.ofInt 32 <$> msgReadByte else pure 0) (morebits &&& 255) := by
    have hiff : bits &&& uEvenmore ≠ 0 ∧ protext &&& pextMorebits ≠ 0 ↔ bits &&& uEvenmore ≠ 0 := by
      refine and_iff_left_of_imp fun e => hgate fun e0 => ?_
      rw [h.evenmore, e0] at e
      exact e rfl
    simp only [hiff]
    refine field (fun _ => ?_) fun hm => ?_
    · exact maskByte_roundTrip (by rw [toNat_and_255]; omega)
    · exact (not_not.1 fun e => hm (h.evenmore.2 e)).symm
  refine hmore.bind ?_
  have hyet : morebits &&& 255 &&& uYetmore = morebits &&& uYetmore := by
    rw [BitVec.and_assoc]
    rfl
  have hhigh : RoundTrip (if morebits &&& uYetmore ≠ 0 then
      msgWriteByte (morebits >>> 8 &&& 255).toNat else pure ())
      (if morebits &&& uYetmore ≠ 0 then
        (fun i => morebits &&& (255 : BitVec 32) ||| BitVec.ofInt 32 i <<< 8) <$> msgReadByte
      else pure (morebits &&& 255)) morebits := by
    refine field (fun _ => ?_) fun hm => ?_
    · have e := (maskByte_roundTrip (x := morebits >>> 8 &&& 255) (by rw [toNat_and_255]; omega)).map_comp
        fun i : BitVec 32 => morebits &&& (255 : BitVec 32) ||| i <<< 8
      rwa [low_or_high h.lt_more] at e
    · have h0 : morebits &&& 0xff00 = 0#32 := not_not.1 fun e => hm (h.yetmore.2 e)
      have e := low_or_high h.lt_more
      have e' : morebits >>> 8 &&& 255 = 0#32 := by
        have e' := congrArg (fun x : BitVec 32 => x >>> 8) h0
        rwa [BitVec.ushiftRight_and_distrib, BitVec.zero_ushiftRight] at e'
      rwa [e', BitVec.zero_shiftLeft, or_zero] at e
  rw [hyet]
  exact hhigh.bind_return fun m => (bits, m)

/-! ## What the client makes of a message -/

/-- Bits of extensions that the client has. -/
structure QwGated (protext morebits : BitVec 32) : Prop where
  scale : morebits &&& uScale ≠ 0 → protext &&& pextScale ≠ 0
  trans : morebits &&& uTrans ≠ 0 → protext &&& pextTrans ≠ 0
  fatness : morebits &&& uFatness ≠ 0 → protext &&& pextFatness ≠ 0
  modeldbl : morebits &&& uModeldbl ≠ 0 → protext &&& pextModeldbl ≠ 0
  drawflags : morebits &&& uDrawflags ≠ 0 → protext &&& pextHexen2 ≠ 0
  abslight : morebits &&& uAbslight ≠ 0 → protext &&& pextHexen2 ≠ 0
  colourmod : morebits &&& uColourmod ≠ 0 → protext &&& pextColourmod ≠ 0

/-- The scalars of `base` with those of `new` that are sent. -/
def qwScalarsDecoded (bits morebits : BitVec 32) (new base : EntityState) : EntityState :=
  { base with
    modelindex := if bits &&& uModel ≠ 0 then
        if morebits &&& uModeldbl ≠ 0 then (new.modelindex &&& 255) + 256
        else new.modelindex &&& 255
      else if morebits &&& uModeldbl ≠ 0 then new.modelindex else base.modelindex
    frame := if bits &&& uFrame ≠ 0 then (new.frame.setWidth 8).setWidth 16 else base.frame
    colormap := if bits &&& uColormap ≠ 0 then (new.colormap.setWidth 8).setWidth 16
      else base.colormap
    skinnum := if bits &&& uSkin ≠ 0 then qwSkin (new.skinnum &&& 0xff).toNat
      else base.skinnum
    effects := if bits &&& uEffects ≠ 0 then base.effects &&& 0xff00 ||| new.effects &&& 0x00ff
      else base.effects }

theorem model_roundTrip (hgate : QwGated protext morebits) (new old : BitVec 16) :
    RoundTrip (if bits &&& uModel ≠ 0 then msgWriteByte (new &&& 255).toNat
      else if morebits &&& uModeldbl ≠ 0 then msgWriteShort new.toNat else pure ())
      (qwReadModel protext bits morebits old)
      (if bits &&& uModel ≠ 0 then
        if morebits &&& uModeldbl ≠ 0 then (new &&& 255) + 256 else new &&& 255
      else if morebits &&& uModeldbl ≠ 0 then new else old) := by
  have hdbl := and_iff_left_of_imp hgate.modeldbl
  have hlow : ((new &&& 255).setWidth 8).setWidth 16 = new &&& 255 := by
    apply eq_of_toNat_eq
    have : (new &&& 255).toNat ≤ 255 := by
      rw [toNat_and]
      exact Nat.and_le_right
    simp only [toNat_setWidth]
    omega
  have hbyte := lowByte_roundTrip 16 (new &&& 255)
  rw [hlow] at hbyte
  unfold qwReadModel
  simp only [hdbl]
  by_cases hm : bits &&& uModel ≠ 0
  · simp only [if_pos hm]
    exact hbyte.map_comp fun i => if morebits &&& uModeldbl ≠ 0 then i + 256 else i
  · simp only [if_neg hm]
    exact ite fun _ => ushort_roundTrip new

theorem scalars_roundTrip (hgate : QwGated protext morebits) (new base : EntityState) :
    RoundTrip (qwWriteScalars bits morebits new) (qwReadScalars protext bits morebits base)
      (qwScalarsDecoded bits morebits new base) := by
  unfold qwWriteScalars qwReadScalars
  refine (model_roundTrip hgate _ _).bind ?_
  refine (ite fun _ => lowByte_roundTrip 16 new.frame).bind ?_
  refine (ite fun _ => lowByte_roundTrip 16 new.colormap).bind ?_
  have hskin := msgByte_roundTrip (new.skinnum &&& 255).toNat
  have hmask : (BitVec.ofInt 8 ((new.skinnum &&& 255).toNat : Int)).toNat = (new.skinnum &&& 255).toNat := by
    rw [ofInt_natCast, BitVec.toNat_ofNat, toNat_and_255]
    omega
  rw [hmask] at hskin
  refine (ite fun _ => hskin.map qwSkin).bind ?_
  have heffects := (maskByte_roundTrip (x := new.effects &&& 255)
    (by rw [toNat_and_255]; omega)).map_comp fun i : BitVec 32 => base.effects &&& 0xff00 ||| i
  exact (ite fun _ => heffects).bind_return _

/-- The vectors of `base` with the components of `wire` that are sent. -/
def qwVectorsDecoded (bits : BitVec 32) (origin angles : Fin 3 → BitVec 32) (base : EntityState) :
    EntityState :=
  { base with
    origin := ![if bits &&& uOrigin1 <<< 0 ≠ 0 then origin 0 else base.origin 0,
      if bits &&& uOrigin1 <<< 1 ≠ 0 then origin 1 else base.origin 1,
      if bits &&& uOrigin1 <<< 2 ≠ 0 then origin 2 else base.origin 2]
    angles := ![if bits &&& uAngle1 ≠ 0 then angles 0 else base.angles 0,
      if bits &&& uAngle2 ≠ 0 then angles 1 else base.angles 1,
      if bits &&& uAngle3 ≠ 0 then angles 2 else base.angles 2]
    solidsize := esSolidBsp }

theorem vectors_roundTrip {coordtype : QByte} {anglesize : ℕ}
    {origin angles : Fin 3 → BitVec 32} (base : EntityState)
    (ho : ∀ i, RoundTrip (szWrite (coordBytes (v.origin i).1 (coordSize coordtype)))
      (msgReadCoord coordtype) (origin i))
    (ha : ∀ i, RoundTrip (szWrite (coordBytes (v.angles i).1 anglesize)) (msgReadAngle anglesize)
      (angles i)) :
    RoundTrip (qwWriteVectors bits coordtype anglesize v)
      (qwReadVectors bits coordtype anglesize base)
      (qwVectorsDecoded bits origin angles base) := by
  unfold qwWriteVectors qwReadVectors
  refine (ite fun _ => ho 0).bind ?_
  refine (ite fun _ => ha 0).bind ?_
  refine (ite fun _ => ho 1).bind ?_
  refine (ite fun _ => ha 1).bind ?_
  refine (ite fun _ => ho 2).bind ?_
  exact (ite fun _ => ha 2).bind_return _

/-- The extended fields of `base` with those of `new` that are sent. -/
def qwExtendedDecoded (protext morebits : BitVec 32) (new base : EntityState) : EntityState :=
  let dpflags := if morebits &&& uDpflags ≠ 0 then new.dpflags else base.dpflags
  { base with
    scale := if morebits &&& uScale ≠ 0 then new.scale else base.scale
    trans := if morebits &&& uTrans ≠ 0 then new.trans else base.trans
    fatness := if morebits &&& uFatness ≠ 0 then new.fatness else base.fatness
    hexen2flags := if morebits &&& uDrawflags ≠ 0 then new.hexen2flags else base.hexen2flags
    abslight := if morebits &&& uAbslight ≠ 0 then new.abslight else base.abslight
    colormod := if morebits &&& uColourmod ≠ 0 then new.colormod else base.colormod
    dpflags := if protext &&& pextDpflags = 0 ∧ base.frame ≠ 0 then dpflags ||| renderStep
      else dpflags
    tagentity := if morebits &&& uTaginfo ≠ 0 then new.tagentity else base.tagentity
    tagindex := if morebits &&& uTaginfo ≠ 0 then new.tagindex else base.tagindex
    light := if morebits &&& uLight ≠ 0 then new.light else base.light
    lightstyle := if morebits &&& uLight ≠ 0 then new.lightstyle else base.lightstyle
    lightpflags := if morebits &&& uLight ≠ 0 then new.lightpflags else base.lightpflags
    effects := if morebits &&& uEffects16 ≠ 0 then
        base.effects &&& (0x00ff : BitVec 32) ||| new.effects &&& 0xff00
      else base.effects }

theorem fatness_roundTrip (x : QByte) :
    RoundTrip (msgWriteChar x.toInt) (BitVec.ofInt 8 <$> msgReadChar) x := by
  have h : RoundTrip (msgWriteChar x.toInt) msgReadChar (BitVec.ofInt 8 x.toInt).toInt :=
    ⟨_, msgWriteChar_emits _, msgReadChar_byteBytes _⟩
  have e := h.map (BitVec.ofInt 8)
  rwa [ofInt_toInt, ofInt_toInt] at e

/-- The client takes an attachment to a small entity. -/
theorem tag_roundTrip (h : new.tagentity.toNat < 0x8000) :
    RoundTrip (do msgWriteEntity new.tagentity.toNat; msgWriteShort new.tagindex.toNat) qwReadTag
      (new.tagentity, new.tagindex) := by
  have hentity : RoundTrip (msgWriteEntity new.tagentity.toNat) msgReadShort
      new.tagentity.toNat := by
    have e := msgShort_roundTrip new.tagentity.toNat
    rw [toInt_ofInt_of_range (w := 15) (by omega) (by omega)] at e
    have hmax : ¬new.tagentity.toNat > maxEdicts := by
      have : maxEdicts = 2 ^ 22 - 1 := by decide
      omega
    rwa [msgWriteEntity, if_neg hmax, if_neg (by omega)]
  have hindex := msgShort_roundTrip new.tagindex.toNat
  refine hentity.bind ?_
  have e := hindex.bind_return fun index => (new.tagentity, BitVec.ofInt 16 index)
  rw [ofInt_toInt, ofInt_natCast, ofNat_toNat, setWidth_eq] at e
  rwa [ofInt_natCast, ofNat_toNat, setWidth_eq]

theorem light_roundTrip (new : EntityState) :
    RoundTrip (do
      msgWriteShort (new.light 0).toNat
      msgWriteShort (new.light 1).toNat
      msgWriteShort (new.light 2).toNat
      msgWriteShort (new.light 3).toNat
      msgWriteByte new.lightstyle.toNat
      msgWriteByte new.lightpflags.toNat) qwReadLight
      (new.light, new.lightstyle, new.lightpflags) := by
  unfold qwReadLight
  refine (ushort_roundTrip _).bind ?_
  refine (ushort_roundTrip _).bind ?_
  refine (ushort_roundTrip _).bind ?_
  refine (ushort_roundTrip _).bind ?_
  refine (byte_roundTrip _).bind ?_
  have e := (byte_roundTrip new.lightpflags).bind_return fun pflags =>
    (![new.light 0, new.light 1, new.light 2, new.light 3], new.lightstyle, pflags)
  rw [vec4_eta] at e ⊢
  exact e

theorem effects16_roundTrip (new base : EntityState) :
    RoundTrip (msgWriteByte ((new.effects &&& 0xff00) >>> 8).toNat)
      ((fun i => base.effects &&& (0x00ff : BitVec 32) ||| BitVec.ofInt 32 i <<< 8) <$> msgReadByte)
      (base.effects &&& (0x00ff : BitVec 32) ||| new.effects &&& 0xff00) := by
  have hlt : ((new.effects &&& 0xff00) >>> 8).toNat < 2 ^ 8 := by
    have : (new.effects &&& 0xff00).toNat ≤ 0xff00 := by
      rw [toNat_and]
      exact Nat.and_le_right
    rw [BitVec.toNat_ushiftRight, Nat.shiftRight_eq_div_pow]
    omega
  have e := (maskByte_roundTrip hlt).map_comp fun i : BitVec 32 => base.effects &&& (0x00ff : BitVec 32) ||| i <<< 8
  -- the low byte under the mask is 0
  have hlow : (new.effects &&& 0xff00).toNat % 2 ^ 8 = 0 := by
    rw [← toNat_and_255, BitVec.and_assoc, show (0xff00 : BitVec 32) &&& 255 = 0#32 from rfl, and_zero]
    rfl
  have hshift : (new.effects &&& 0xff00) >>> 8 <<< 8 = new.effects &&& 0xff00 := by
    apply eq_of_toNat_eq
    rw [BitVec.toNat_shiftLeft, BitVec.toNat_ushiftRight, Nat.shiftLeft_eq, Nat.shiftRight_eq_div_pow]
    omega
  rwa [hshift] at e

theorem extended_roundTrip (hgate : QwGated protext morebits)
    (new base : EntityState) (htag : morebits &&& uTaginfo ≠ 0 → new.tagentity.toNat < 0x8000) :
    RoundTrip (qwWriteExtended morebits new) (qwReadExtended protext morebits base)
      (qwExtendedDecoded protext morebits new base) := by
  unfold qwWriteExtended qwReadExtended
  simp only [and_iff_left_of_imp hgate.scale, and_iff_left_of_imp hgate.trans, and_iff_left_of_imp hgate.fatness,
    and_iff_left_of_imp hgate.drawflags, and_iff_left_of_imp hgate.abslight, and_iff_left_of_imp hgate.colourmod]
  refine (ite fun _ => byte_roundTrip new.scale).bind ?_
  refine (ite fun _ => byte_roundTrip new.trans).bind ?_
  refine (ite fun _ => fatness_roundTrip new.fatness).bind ?_
  refine (ite fun _ => byte_roundTrip new.hexen2flags).bind ?_
  refine (ite fun _ => byte_roundTrip new.abslight).bind ?_
  refine (ite fun _ => writeVec_roundTrip fun i => byte_roundTrip (new.colormod i)).bind ?_
  refine (ite fun _ => byte_roundTrip new.dpflags).bind ?_
  have htag' := ite (d := (base.tagentity, base.tagindex)) fun h =>
    tag_roundTrip (htag h)
  have hlight := ite (p := morebits &&& uLight ≠ 0)
    (d := (base.light, base.lightstyle, base.lightpflags)) fun _ => light_roundTrip new
  rw [ite_prod] at htag'
  rw [ite_prod, ite_prod] at hlight
  refine htag'.bind ?_
  refine hlight.bind ?_
  exact (ite fun _ => effects16_roundTrip new base).bind_return _

/-! ## What the bits say -/

/-- `bits` of a delta that is written. -/
def qwSentBits (protext : BitVec 32) (force : Bool) (v : QwVectors) (old new : EntityState) :
    BitVec 32 :=
  qwFlags (qwMoreFlags (qwNumberBits new.number (qwMorebits protext force old new)))
    (qwBits protext force v old new)

/-- `evenmorebits` of a delta that is written. -/
def qwSentMorebits (protext : BitVec 32) (force : Bool) (old new : EntityState) : BitVec 32 :=
  qwMoreFlags (qwNumberBits new.number (qwMorebits protext force old new))

theorem qwSentBits_and (hf : uEvenmore &&& f = 0#32) (hf' : uMorebits &&& f = 0#32) :
    qwSentBits protext force v old new &&& f = qwBits protext force v old new &&& f := by
  unfold qwSentBits qwFlags
  rw [orIf_and_of_and_eq_zero hf', orIf_and_of_and_eq_zero hf]

theorem qwSentMorebits_and (hf : uYetmore &&& f = 0#32) :
    qwSentMorebits protext force old new &&& f =
      qwNumberBits new.number (qwMorebits protext force old new) &&& f := by
  unfold qwSentMorebits qwMoreFlags
  rw [orIf_and_of_and_eq_zero hf]

/-- The flags of the fields in the word and the first byte. -/
theorem qwBits_iff (protext : BitVec 32) (force : Bool) (v : QwVectors) (old new : EntityState) :
    (qwBits protext force v old new &&& uOrigin1 <<< 0 ≠ 0 ↔ (v.origin 0).2 = true) ∧
    (qwBits protext force v old new &&& uOrigin1 <<< 1 ≠ 0 ↔ (v.origin 1).2 = true) ∧
    (qwBits protext force v old new &&& uOrigin1 <<< 2 ≠ 0 ↔ (v.origin 2).2 = true) ∧
    (qwBits protext force v old new &&& uAngle1 ≠ 0 ↔ (v.angles 0).2 = true) ∧
    (qwBits protext force v old new &&& uAngle2 ≠ 0 ↔ (v.angles 1).2 = true) ∧
    (qwBits protext force v old new &&& uAngle3 ≠ 0 ↔ (v.angles 2).2 = true) ∧
    (qwBits protext force v old new &&& uColormap ≠ 0 ↔ new.colormap ≠ old.colormap) ∧
    (qwBits protext force v old new &&& uSkin ≠ 0 ↔ new.skinnum ≠ old.skinnum) ∧
    (qwBits protext force v old new &&& uFrame ≠ 0 ↔ new.frame ≠ old.frame) ∧
    (qwBits protext force v old new &&& uEffects ≠ 0 ↔
      new.effects &&& 0x00ff ≠ qwFromeffects protext force old &&& 0x00ff) ∧
    (qwBits protext force v old new &&& uModel ≠ 0 ↔
      new.modelindex ≠ old.modelindex ∧ ¬512 < new.modelindex) := by
  simp [qwBits, uOrigin1, uAngle1, uAngle2, uAngle3, uColormap, uSkin, uFrame, uEffects, uModel]

/-- The flags of the extended fields. -/
theorem qwMorebits_iff (protext : BitVec 32) (force : Bool) (old new : EntityState) :
    (qwMorebits protext force old new &&& uEffects16 ≠ 0 ↔
      new.effects &&& 0xff00 ≠ qwFromeffects protext force old &&& 0xff00 ∧
        protext &&& pextDpflags ≠ 0) ∧
    (qwMorebits protext force old new &&& uModeldbl ≠ 0 ↔
      new.modelindex ≠ old.modelindex ∧ 255 < new.modelindex ∧ protext &&& pextModeldbl ≠ 0) ∧
    (qwMorebits protext force old new &&& uScale ≠ 0 ↔
      new.scale ≠ old.scale ∧ protext &&& pextScale ≠ 0) ∧
    (qwMorebits protext force old new &&& uTrans ≠ 0 ↔
      new.trans ≠ old.trans ∧ protext &&& pextTrans ≠ 0) ∧
    (qwMorebits protext force old new &&& uFatness ≠ 0 ↔
      new.fatness ≠ old.fatness ∧ protext &&& pextFatness ≠ 0) ∧
    (qwMorebits protext force old new &&& uDrawflags ≠ 0 ↔
      new.hexen2flags ≠ old.hexen2flags ∧ protext &&& pextHexen2 ≠ 0) ∧
    (qwMorebits protext force old new &&& uAbslight ≠ 0 ↔
      new.abslight ≠ old.abslight ∧ protext &&& pextHexen2 ≠ 0) ∧
    (qwMorebits protext force old new &&& uColourmod ≠ 0 ↔
      ColormodDiffers old new ∧ protext &&& pextColourmod ≠ 0) ∧
    (qwMorebits protext force old new &&& uDpflags ≠ 0 ↔
      new.dpflags ≠ old.dpflags ∧ protext &&& pextDpflags ≠ 0) ∧
    (qwMorebits protext force old new &&& uTaginfo ≠ 0 ↔
      (new.tagentity ≠ old.tagentity ∨ new.tagindex ≠ old.tagindex) ∧
        protext &&& pextSetattachment ≠ 0) ∧
    (qwMorebits protext force old new &&& uLight ≠ 0 ↔
      (LightDiffers old new ∨ new.lightpflags ≠ old.lightstyle) ∧ protext &&& pextDpflags ≠ 0) := by
  simp [qwMorebits, uEffects16, uModeldbl, uScale, uTrans, uFatness, uDrawflags, uAbslight,
    uColourmod, uDpflags, uTaginfo, uLight]

theorem qwBits_free (protext : BitVec 32) (force : Bool) (v : QwVectors) (old new : EntityState) :
    qwBits protext force v old new &&& 256 = 0#32 ∧
    qwBits protext force v old new &&& uRemove = 0#32 ∧
    qwBits protext force v old new &&& uMorebits = 0#32 ∧
    qwBits protext force v old new &&& uEvenmore = 0#32 ∧
    (qwBits protext force v old new).toNat < 2 ^ 16 := by
  refine ⟨?_, ?_, ?_, ?_, ?_⟩
  · simp [qwBits, uOrigin1, uAngle1, uAngle2, uAngle3, uColormap, uSkin, uFrame, uEffects, uModel]
  · simp [qwBits, uOrigin1, uAngle1, uAngle2, uAngle3, uColormap, uSkin, uFrame, uEffects, uModel, uRemove]
  · simp [qwBits, uOrigin1, uAngle1, uAngle2, uAngle3, uColormap, uSkin, uFrame, uEffects, uModel, uMorebits]
  · simp [qwBits, uOrigin1, uAngle1, uAngle2, uAngle3, uColormap, uSkin, uFrame, uEffects, uModel, uEvenmore]
  · unfold qwBits
    iterate 11 apply orIf_lt (by decide)
    decide

theorem qwNumberBits_free (protext number : BitVec 32) (force : Bool) (old new : EntityState) :
    qwNumberBits number (qwMorebits protext force old new) &&& uYetmore = 0#32 ∧
    (qwNumberBits number (qwMorebits protext force old new)).toNat < 2 ^ 16 := by
  refine ⟨?_, ?_⟩
  · simp [qwNumberBits, qwMorebits, uEffects16, uModeldbl, uScale, uTrans, uFatness, uDrawflags,
      uAbslight, uColourmod, uDpflags, uTaginfo, uLight, uYetmore, uEntitydbl, uEntitydbl2]
  · unfold qwNumberBits qwMorebits
    iterate 13 apply orIf_lt (by decide)
    decide

theorem qwSentBits_ready (protext : BitVec 32) (force : Bool) (v : QwVectors) (old new : EntityState) :
    QwBitsReady (qwSentBits protext force v old new) (qwSentMorebits protext force old new) := by
  obtain ⟨h8, hremove, hmore, heven, hlt⟩ := qwBits_free protext force v old new
  obtain ⟨hyet, hlt'⟩ := qwNumberBits_free protext new.number force old new
  refine ⟨?_, ?_, ?_, ?_, ?_, ?_, ?_⟩
  · have e : (511 : BitVec 32) = 255 ||| 256 := rfl
    rw [e, BitVec.and_comm, or_and, BitVec.and_comm 256, BitVec.and_comm 255,
      qwSentBits_and (f := 256) (by decide) (by decide), h8, or_zero]
  · rw [qwSentBits_and (by decide) (by decide), hremove]
    rfl
  · exact orIf_lt (by decide) (orIf_lt (by decide) hlt)
  · exact orIf_lt (by decide) hlt'
  · refine orIf_announces (by decide) (by decide) ?_
    rw [orIf_and_of_and_eq_zero (by decide), hmore]
  · unfold qwSentBits qwFlags
    rw [orIf_and_of_and_eq_zero (by decide)]
    exact orIf_and_self_ne_zero (by decide) heven
  · exact orIf_announces (by decide) (by decide) hyet

/-- The extended fields that are sent, before and after the number is looked at. -/
theorem qwSentMorebits_field
    (hf : uYetmore &&& f = 0#32) (hf' : uEntitydbl &&& f = 0#32) (hf'' : uEntitydbl2 &&& f = 0#32) :
    qwSentMorebits protext force old new &&& f = qwMorebits protext force old new &&& f := by
  rw [qwSentMorebits_and hf, qwNumberBits, orIf_and_of_and_eq_zero hf'', orIf_and_of_and_eq_zero hf']

theorem qwSentMorebits_gated (protext : BitVec 32) (force : Bool) (old new : EntityState) :
    QwGated protext (qwSentMorebits protext force old new) := by
  obtain ⟨-, hmodel, hscale, htrans, hfatness, hdraw, habs, hcolour, -⟩ :=
    qwMorebits_iff protext force old new
  constructor
  all_goals rw [qwSentMorebits_field (by decide) (by decide) (by decide)]
  · exact fun h => (hscale.1 h).2
  · exact fun h => (htrans.1 h).2
  · exact fun h => (hfatness.1 h).2
  · exact fun h => (hmodel.1 h).2.2
  · exact fun h => (hdraw.1 h).2
  · exact fun h => (habs.1 h).2
  · exact fun h => (hcolour.1 h).2

/-- An entity number that the extensions can send. -/
structure QwNumberFits (protext number : BitVec 32) : Prop where
  pos : number ≠ 0
  lt : number.toNat < 2048
  dbl : 512 ≤ number.toNat % 1024 → protext &&& pextEntitydbl ≠ 0
  dbl2 : 1024 ≤ number.toNat → protext &&& pextEntitydbl2 ≠ 0

/-- **The number of the entity comes back.** -/
theorem qwNumber_eq (h : QwNumberFits protext new.number) :
    qwNumber protext (qwWord new.number bits) (qwSentMorebits protext force old new) =
      new.number := by
  have hlt := h.lt
  have h512 : (512 : BitVec 32).toNat = 512 := rfl
  have h1024 : (1024 : BitVec 32).toNat = 1024 := rfl
  have h1536 : (1024 + 512 : BitVec 32).toNat = 1536 := rfl
  obtain ⟨hfree, hfree'⟩ : qwMorebits protext force old new &&& uEntitydbl = 0#32 ∧
      qwMorebits protext force old new &&& uEntitydbl2 = 0#32 := by
    constructor
    all_goals simp [qwMorebits, uEffects16, uModeldbl, uScale, uTrans, uFatness, uDrawflags,
      uAbslight, uColourmod, uDpflags, uTaginfo, uLight, uEntitydbl, uEntitydbl2]
  have hdbl : qwSentMorebits protext force old new &&& uEntitydbl ≠ 0 ↔ 512 ≤ new.number.toNat % 1024 := by
    rw [qwSentMorebits_and (by decide), qwNumberBits, orIf_and_of_and_eq_zero (by decide)]
    refine (orIf_and_self_ne_zero (by decide) hfree).trans ?_
    simp only [le_def, lt_def, h512, h1024, h1536]
    omega
  have hdbl2 : qwSentMorebits protext force old new &&& uEntitydbl2 ≠ 0 ↔ 1024 ≤ new.number.toNat := by
    rw [qwSentMorebits_and (by decide), qwNumberBits]
    refine (orIf_and_self_ne_zero (by decide) ?_).trans ?_
    · rw [orIf_and_of_and_eq_zero (by decide), hfree']
    · rw [le_def, h1024]
  have hword : (qwWord new.number bits &&& 511).toNat = new.number.toNat % 512 := by
    rw [qwWord, merge_and, toNat_and]
    exact Nat.and_two_pow_sub_one_eq_mod _ 9
  unfold qwNumber
  simp only [hdbl, hdbl2, and_iff_left_of_imp h.dbl, and_iff_left_of_imp h.dbl2]
  apply eq_of_toNat_eq
  split_ifs
  all_goals
    simp only [BitVec.toNat_add, hword, h512, h1024]
    omega

/-! ## The state that is left -/

/-- The state that a delta leaves in `*to`. -/
def qwLeft (coordtype : QByte) (v : QwVectors) (old new : EntityState) : EntityState :=
  qwGlowtrail old (qwKeep coordtype v old new)

/-- A model that can be sent. -/
def QwModelFits (protext : BitVec 32) (old new : EntityState) : Prop :=
  new.modelindex ≠ old.modelindex → 255 < new.modelindex → protext &&& pextModeldbl ≠ 0

/-- Without room for 40 bytes the entity stays as it was. -/
theorem svqwWriteDelta_noRoom {ezext : BitVec 32} {msg : Sizebuf} (hv : qwVectors msg.prim ezext old new = some v)
    (hmodel : QwModelFits protext old new) (hroom : msg.maxsize < msg.cursize + 40) :
    (svqwWriteDelta old new force protext ezext).run msg = some (old, msg) := by
  have hearly : ¬(new.modelindex ≠ old.modelindex ∧ 255 < new.modelindex ∧
      protext &&& pextModeldbl = 0) := fun ⟨h, h', h0⟩ => hmodel h h' h0
  unfold svqwWriteDelta
  rw [StateT.run, hv, bind_some]
  exact (if_neg hearly).trans (if_pos hroom)

/-- With room, either there is nothing to send or the message is written. -/
theorem svqwWriteDelta_room {ezext : BitVec 32} {msg : Sizebuf} (hv : qwVectors msg.prim ezext old new = some v)
    (hmodel : QwModelFits protext old new) (hroom : msg.cursize + 40 ≤ msg.maxsize) (hnumber : new.number ≠ 0)
    (hlt : new.number.toNat < 2048) :
    let left := qwLeft (qwCoordtype msg.prim ezext) v old new
    (svqwWriteDelta old new force protext ezext).run msg =
      if qwBits protext force v old left = 0 ∧ qwMorebits protext force old left = 0 ∧
        force = false then some (left, msg)
      else ((qwWriteMessage (qwCoordtype msg.prim ezext) msg.prim.anglesize.toNat
        (qwSentBits protext force v old left) (qwSentMorebits protext force old left) v left).run
          msg).map fun r => (left, r.2) := by
  intro left
  have hearly : ¬(new.modelindex ≠ old.modelindex ∧ 255 < new.modelindex ∧
      protext &&& pextModeldbl = 0) := fun ⟨h, h', h0⟩ => hmodel h h' h0
  have hn : left.number = new.number := rfl
  have hbig : ¬2048 ≤ left.number := by
    rw [hn, le_def]
    exact not_le.2 hlt
  have hremove : ¬qwWord left.number (qwSentBits protext force v old left) &&& uRemove ≠ 0 := by
    rw [not_not, qwWord, or_and, BitVec.and_assoc, BitVec.and_assoc, show 511 &&& uRemove = 0#32 from rfl, show ~~~511
      &&& uRemove = uRemove from rfl, (qwSentBits_ready protext force v old left).remove, and_zero]
    rfl
  unfold svqwWriteDelta
  rw [StateT.run, hv, bind_some]
  refine (if_neg hearly).trans ((if_neg (not_lt.2 hroom)).trans ?_)
  refine (if_neg (hn ▸ hnumber)).trans ?_
  by_cases h0 : qwBits protext force v old left = 0 ∧ qwMorebits protext force old left = 0 ∧ force = false
  · exact (if_pos h0).trans (if_pos h0).symm
  · exact (if_neg h0).trans ((if_neg hbig).trans ((if_neg hremove).trans (if_neg h0).symm))

/-! ## The delta of an entity -/

/-- `got` is `left` in the fields that the extensions carry; coordinates and angles are compared by
`coord` and `angle`. -/
structure QwAgrees (protext : BitVec 32) (coord angle : BitVec 32 → BitVec 32 → Prop)
    (got left : EntityState) : Prop where
  number : got.number = left.number
  modelindex : got.modelindex = left.modelindex
  frame : got.frame = left.frame
  colormap : got.colormap = left.colormap
  skinnum : got.skinnum = left.skinnum
  effects : got.effects &&& 0x00ff = left.effects &&& 0x00ff
  origin : ∀ i, coord (got.origin i) (left.origin i)
  angles : ∀ i, angle (got.angles i) (left.angles i)
  scale : protext &&& pextScale ≠ 0 → got.scale = left.scale
  trans : protext &&& pextTrans ≠ 0 → got.trans = left.trans
  fatness : protext &&& pextFatness ≠ 0 → got.fatness = left.fatness
  hexen2flags : protext &&& pextHexen2 ≠ 0 → got.hexen2flags = left.hexen2flags
  abslight : protext &&& pextHexen2 ≠ 0 → got.abslight = left.abslight
  colormod : protext &&& pextColourmod ≠ 0 → got.colormod = left.colormod
  dpflags : protext &&& pextDpflags ≠ 0 → got.dpflags = left.dpflags
  tagentity : protext &&& pextSetattachment ≠ 0 → got.tagentity = left.tagentity
  tagindex : protext &&& pextSetattachment ≠ 0 → got.tagindex = left.tagindex
  light : protext &&& pextDpflags ≠ 0 → got.light = left.light
  lightstyle : protext &&& pextDpflags ≠ 0 → got.lightstyle = left.lightstyle
  lightpflags : protext &&& pextDpflags ≠ 0 → got.lightpflags = left.lightpflags
  effects16 : protext &&& pextDpflags ≠ 0 → got.effects &&& 0xff00 = left.effects &&& 0xff00

/-- **The delta of `new` from `old` reaches a client that holds `base`.** Wherever they fit, the
writer appends some bytes and leaves a state; without room it leaves `old`. When there are no
bytes, `base` agrees with the state that is left; otherwise the client takes exactly the bytes and
gets a state that agrees with it. -/
def QwDelta (protext ezext : BitVec 32) (prim : Netprim) (force : Bool)
    (coord angle : BitVec 32 → BitVec 32 → Prop) (base old new : EntityState) : Prop :=
  ∃ xs left,
    (∀ msg : Sizebuf, msg.prim = prim → msg.cursize + 40 ≤ msg.maxsize →
      msg.cursize + xs.length ≤ msg.maxsize →
      (svqwWriteDelta old new force protext ezext).run msg = some (left, msg.append xs)) ∧
    (∀ msg : Sizebuf, msg.prim = prim → msg.maxsize < msg.cursize + 40 →
      (svqwWriteDelta old new force protext ezext).run msg = some (old, msg)) ∧
    if xs = [] then QwAgrees protext coord angle base left
    else ∀ incomingSequence, ∃ got,
      (netprimSource prim).Takes (qwParseWordDelta protext ezext incomingSequence base) xs got ∧
      QwAgrees protext coord angle got left

/-- The changes that the client reads in the places where the server writes them. -/
structure QwSynced (protext : BitVec 32) (old new : EntityState) : Prop where
  number : QwNumberFits protext new.number
  modelindex : QwModelFits protext old new
  /-- The client needs an extension in `pextMorebits`, and reads the entity as a signed short. -/
  tag : new.tagentity ≠ old.tagentity ∨ new.tagindex ≠ old.tagindex →
    protext &&& pextSetattachment ≠ 0 →
    new.tagentity.toNat < 0x8000 ∧ protext &&& pextMorebits ≠ 0

/-- The changes that can be sent. -/
structure QwSendable (protext : BitVec 32) (force : Bool) (old new : EntityState) : Prop
    extends QwSynced protext old new where
  /-- A delta from an old packet is of the same entity. -/
  same : force = false → old.number = new.number
  /-- 512 is the index that is sent as 256. -/
  modelindex_ne : new.modelindex ≠ old.modelindex → new.modelindex ≠ 512
  frame : new.frame ≠ old.frame → new.frame < 256
  colormap : new.colormap ≠ old.colormap → new.colormap < 256
  skinnum : new.skinnum ≠ old.skinnum → new.skinnum < 224 ∨ 0xffffffe0 ≤ new.skinnum
  /-- Light flags are compared with the old style. -/
  light : protext &&& pextDpflags ≠ 0 → ¬LightDiffers old new →
    new.lightpflags = old.lightstyle → new.lightpflags = old.lightpflags

/-! ### The fields -/

theorem qwSkin_eq {x : BitVec 32} (h : x < 224 ∨ 0xffffffe0 ≤ x) : qwSkin (x &&& 0xff).toNat = x := by
  have hlow : (x &&& 0xff).toNat = x.toNat % 2 ^ 8 := toNat_and_255 x
  have h224 : (224 : BitVec 32).toNat = 224 := rfl
  have h224' : (256 - 32 : BitVec 32).toNat = 224 := rfl
  have hcontents : (0xffffffe0 : BitVec 32).toNat = 0xffffffe0 := rfl
  have hx := x.isLt
  rw [lt_def, le_def, h224, hcontents] at h
  have he : BitVec.ofInt 32 ((x &&& 0xff).toNat : Int) = x &&& 0xff := by
    rw [ofInt_natCast, ofNat_toNat, setWidth_eq]
  unfold qwSkin
  dsimp only
  rw [he]
  rcases h with h | h
  · rw [if_neg (by rw [ge_iff_le, le_def, hlow, h224']; omega)]
    exact eq_of_toNat_eq (by omega)
  · rw [if_pos (by rw [ge_iff_le, le_def, hlow, h224']; omega)]
    have hset : ((x &&& 0xff).setWidth 8).toNat = x.toNat % 2 ^ 8 := by
      rw [toNat_setWidth, hlow]
      omega
    apply eq_of_toNat_eq
    rw [BitVec.signExtend, BitVec.toNat_ofInt, BitVec.toInt_eq_toNat_cond, hset]
    split <;> omega

theorem model_decoded {old new : BitVec 16} {model dbl : Prop} [Decidable model] [Decidable dbl]
    (hmodel : model ↔ new ≠ old ∧ ¬512 < new) (hdbl : dbl ↔ new ≠ old ∧ 255 < new ∧ protext &&& pextModeldbl ≠ 0)
    (hfits : new ≠ old → 255 < new → protext &&& pextModeldbl ≠ 0) (hne : new ≠ old → new ≠ 512) :
    (if model then if dbl then (new &&& 255) + 256 else new &&& 255 else if dbl then new else old) =
      new := by
  have h255 : (255 : BitVec 16).toNat = 255 := rfl
  have h256 : (256 : BitVec 16).toNat = 256 := rfl
  have h512 : (512 : BitVec 16).toNat = 512 := rfl
  have hlow : (new &&& 255).toNat = new.toNat % 2 ^ 8 := by
    rw [toNat_and]
    exact Nat.and_two_pow_sub_one_eq_mod _ 8
  by_cases ho : new = old
  · rw [if_neg (by tauto), if_neg (by tauto), ho]
  · have hne' : new.toNat ≠ 512 := fun e => hne ho (eq_of_toNat_eq e)
    have hfits := hfits ho
    simp only [lt_def, h255, h512] at hmodel hdbl hfits
    have hlt := new.isLt
    split_ifs with hm hd hd
    · refine eq_of_toNat_eq ?_
      have := hmodel.1 hm
      have := hdbl.1 hd
      rw [BitVec.toNat_add, hlow, h256]
      omega
    · refine eq_of_toNat_eq ?_
      have h : ¬255 < new.toNat := fun h => hd (hdbl.2 ⟨ho, h, hfits h⟩)
      rw [hlow]
      omega
    · rfl
    · exfalso
      have h : ¬255 < new.toNat := fun h => hd (hdbl.2 ⟨ho, h, hfits h⟩)
      exact hm (hmodel.2 ⟨ho, by omega⟩)

section Effects

variable {base new : BitVec 32} {eff eff16 : Prop} [Decidable eff] [Decidable eff16]

/-- The low byte of the effects, and the second when it is not sent. -/
theorem effectsLow_decoded (heff : eff ↔ new &&& 0x00ff ≠ base &&& 0x00ff) :
    (if eff then base &&& 0xff00 ||| new &&& 0x00ff else base) &&& 0x00ff = new &&& 0x00ff ∧
    (if eff then base &&& 0xff00 ||| new &&& 0x00ff else base) &&& 0xff00 = base &&& 0xff00 := by
  by_cases h : eff
  · rw [if_pos h]
    refine ⟨?_, fields_and _ _ _ _ (by decide)⟩
    rw [BitVec.or_comm]
    exact fields_and _ _ _ _ (by decide)
  · rw [if_neg h]
    exact ⟨(not_not.1 (mt heff.2 h)).symm, rfl⟩

theorem effects_decoded {e : BitVec 32} (he : e &&& 0x00ff = new &&& 0x00ff) :
    (if eff16 then e &&& (0x00ff : BitVec 32) ||| new &&& 0xff00 else e) &&& 0x00ff =
      new &&& 0x00ff := by
  split_ifs
  · exact (fields_and _ _ _ _ (by decide)).trans he
  · exact he

theorem effects16_decoded {e : BitVec 32} (h : ¬eff16 → e &&& 0xff00 = new &&& 0xff00) :
    (if eff16 then e &&& (0x00ff : BitVec 32) ||| new &&& 0xff00 else e) &&& 0xff00 =
      new &&& 0xff00 := by
  split_ifs with h16
  · rw [BitVec.or_comm]
    exact fields_and _ _ _ _ (by decide)
  · exact h h16

end Effects

/-- What a client with `base` makes of the message of `left`. -/
def qwDecoded (protext bits morebits incomingSequence : BitVec 32) (origin angles : Fin 3 → BitVec 32)
    (base left : EntityState) : EntityState :=
  qwExtendedDecoded protext morebits left (qwVectorsDecoded bits origin angles
    (qwScalarsDecoded bits morebits left
      { base with number := left.number, sequence := incomingSequence }))

theorem vecM_eq_some {α : Type} {f : Fin 3 → Option α} {g : Fin 3 → α} (h : vecM f = some g)
    (i : Fin 3) : f i = some (g i) := by
  obtain ⟨a, ha, h⟩ := bind_eq_some_iff.1 h
  obtain ⟨b, hb, h⟩ := bind_eq_some_iff.1 h
  obtain ⟨c, hc, h⟩ := bind_eq_some_iff.1 h
  obtain rfl := some.inj h
  match i with
  | 0 => exact ha
  | 1 => exact hb
  | 2 => exact hc

variable {ezext f protext t : BitVec 32} {p : BitVec 32 × Bool} {force : Bool}
  {base new old : EntityState} {prim : Netprim} {v : QwVectors}

theorem qwVectors_spec (h : qwVectors prim ezext old new = some v) (i : Fin 3) :
    qwCoord (qwCoordtype prim ezext) (old.origin i) (new.origin i) = some (v.origin i) ∧
      qwAngle prim.anglesize.toNat (old.angles i) (new.angles i) = some (v.angles i) := by
  obtain ⟨o, ho, h⟩ := bind_eq_some_iff.1 h
  obtain ⟨a, ha, h⟩ := bind_eq_some_iff.1 h
  obtain rfl := some.inj h
  exact ⟨vecM_eq_some ho i, vecM_eq_some ha i⟩

theorem qwCoord_spec {type : QByte} (h : qwCoord type f t = some p) :
    msgToCoord t type = some p.1 ∧ (type = coordtypeFloat32 → p.2 = false → ¬Differ t f) := by
  unfold qwCoord at h
  split at h
  · obtain ⟨c, hc, h⟩ := bind_eq_some_iff.1 h
    obtain ⟨c', -, h⟩ := bind_eq_some_iff.1 h
    obtain rfl := some.inj h
    exact ⟨hc, fun e => absurd e ‹_›⟩
  · obtain ⟨c, hc, h⟩ := bind_eq_some_iff.1 h
    obtain rfl := some.inj h
    exact ⟨hc, fun _ => of_decide_eq_false⟩

/-- A coordinate, sent or not, arrives. -/
theorem coord_arrives {type : QByte} (h : qwCoord type f t = some p) :
    CoordArrives type (if p.2 = true then (msgFromCoord p.1 type).getD 0 else f)
      (if type ≠ coordtypeFloat32 ∧ p.2 = false then f else t) := by
  obtain ⟨hc, hfloat⟩ := qwCoord_spec h
  cases hp : p.2 with
  | true =>
    obtain ⟨x, hx⟩ := isSome_iff_exists.1 (msgToCoord_spec hc).2.2.2
    rw [if_pos rfl, if_neg (by simp), hx]
    refine .inr (.inr ?_)
    rw [wireCoord, hc]
    exact hx
  | false =>
    rw [if_neg (by simp)]
    by_cases ht : type = coordtypeFloat32
    · rw [if_neg (fun e => e.1 ht)]
      exact .inr (.inl fun e => hfloat ht hp e.symm)
    · rw [if_pos ⟨ht, rfl⟩]
      exact .inl rfl

/-- An angle, sent or not, arrives. -/
theorem angle_arrives {anglesize : ℕ} (h : qwAngle anglesize f t = some p) :
    AngleArrives anglesize (if p.2 = true then angleOf anglesize p.1 else f)
      (if p.2 = false then f else t) := by
  obtain ⟨c, hc, h⟩ := bind_eq_some_iff.1 h
  obtain ⟨c', -, h⟩ := bind_eq_some_iff.1 h
  obtain rfl := some.inj h
  dsimp only
  cases hp : decide (c' ≠ c) with
  | true =>
    rw [if_pos rfl, if_neg (by simp)]
    exact .inr (by rw [wireAngle, hc]; rfl)
  | false =>
    rw [if_neg (by simp), if_pos rfl]
    exact .inl rfl

theorem colormod_eq (h : ¬ColormodDiffers old new) :
    new.colormod = old.colormod := by
  unfold ColormodDiffers at h
  push Not at h
  rw [← vec3_eta new.colormod, h.1, h.2.1, h.2.2, vec3_eta]

theorem light_eq (h : ¬LightDiffers old new) :
    new.light = old.light ∧ new.lightstyle = old.lightstyle := by
  unfold LightDiffers at h
  push Not at h
  obtain ⟨h0, h1, h2, h3, hs⟩ := h
  refine ⟨?_, hs⟩
  funext i
  match i with
  | 0 => exact h0
  | 1 => exact h1
  | 2 => exact h2
  | 3 => exact h3

/-- **The decoded state agrees with the one that is left**, with the bits of the delta and any flags
that announce more of them. -/
theorem qwAgrees_decoded (bits morebits incomingSequence : BitVec 32)
    (hv : qwVectors prim ezext old new = some v) (h : QwSendable protext force old new)
    (hbits : ∀ f, uEvenmore &&& f = 0#32 → uMorebits &&& f = 0#32 → bits &&& f =
      qwBits protext force v old (qwLeft (qwCoordtype prim ezext) v old new) &&& f)
    (hmore : ∀ f, uYetmore &&& f = 0#32 → uEntitydbl &&& f = 0#32 → uEntitydbl2 &&& f = 0#32 →
      morebits &&& f =
        qwMorebits protext force old (qwLeft (qwCoordtype prim ezext) v old new) &&& f) :
    QwAgrees protext (CoordArrives (qwCoordtype prim ezext)) (AngleArrives prim.anglesize.toNat)
      (qwDecoded protext bits morebits incomingSequence
        (fun i => (msgFromCoord (v.origin i).1 (qwCoordtype prim ezext)).getD 0)
        (fun i => angleOf prim.anglesize.toNat (v.angles i).1)
        { old with effects := qwFromeffects protext force old }
        (qwLeft (qwCoordtype prim ezext) v old new))
      (qwLeft (qwCoordtype prim ezext) v old new) := by
  obtain ⟨ho0, ho1, ho2, ha0, ha1, ha2, hcolormap, hskin, hframe, heffects, hmodel⟩ :=
    qwBits_iff protext force v old (qwLeft (qwCoordtype prim ezext) v old new)
  obtain ⟨heffects16, hdbl, hscale, htrans, hfatness, hdraw, habs, hcolour, hdp, htag, hlight⟩ :=
    qwMorebits_iff protext force old (qwLeft (qwCoordtype prim ezext) v old new)
  have hb {f : BitVec 32} {c : Prop} (hf : qwBits protext force v old
      (qwLeft (qwCoordtype prim ezext) v old new) &&& f ≠ 0 ↔ c)
      (he : uEvenmore &&& f = 0#32) (hm : uMorebits &&& f = 0#32) : bits &&& f ≠ 0 ↔ c := by
    rwa [hbits f he hm]
  have hm {f : BitVec 32} {c : Prop} (hf : qwMorebits protext force old
      (qwLeft (qwCoordtype prim ezext) v old new) &&& f ≠ 0 ↔ c)
      (hy : uYetmore &&& f = 0#32) (he : uEntitydbl &&& f = 0#32)
      (he' : uEntitydbl2 &&& f = 0#32) : morebits &&& f ≠ 0 ↔ c := by
    rwa [hmore f hy he he']
  have hlow := effectsLow_decoded (hb heffects rfl rfl)
  exact
  { number := rfl
    modelindex := model_decoded (hb hmodel rfl rfl) (hm hdbl rfl rfl rfl) h.modelindex h.modelindex_ne
    frame := ite_sent (hb hframe rfl rfl) fun e =>
      setWidth_setWidth_of_lt (h.frame e)
    colormap := ite_sent (hb hcolormap rfl rfl) fun e =>
      setWidth_setWidth_of_lt (h.colormap e)
    skinnum := ite_sent (hb hskin rfl rfl) fun e => qwSkin_eq (h.skinnum e)
    effects := effects_decoded hlow.1
    effects16 := fun hg => effects16_decoded fun e => hlow.2.trans (not_not.1 fun e' =>
      e ((hm heffects16 rfl rfl rfl).2 ⟨Ne.symm e', hg⟩))
    origin := fun i => by
      have e := coord_arrives (qwVectors_spec hv i).1
      match i with
      | 0 => simp only [← hb ho0 rfl rfl] at e; exact e
      | 1 => simp only [← hb ho1 rfl rfl] at e; exact e
      | 2 => simp only [← hb ho2 rfl rfl] at e; exact e
    angles := fun i => by
      have e := angle_arrives (qwVectors_spec hv i).2
      match i with
      | 0 => simp only [← hb ha0 rfl rfl] at e; exact e
      | 1 => simp only [← hb ha1 rfl rfl] at e; exact e
      | 2 => simp only [← hb ha2 rfl rfl] at e; exact e
    scale := fun hg => ite_gated (hm hscale rfl rfl rfl) hg not_not.1
    trans := fun hg => ite_gated (hm htrans rfl rfl rfl) hg not_not.1
    fatness := fun hg => ite_gated (hm hfatness rfl rfl rfl) hg not_not.1
    hexen2flags := fun hg => ite_gated (hm hdraw rfl rfl rfl) hg not_not.1
    abslight := fun hg => ite_gated (hm habs rfl rfl rfl) hg not_not.1
    colormod := fun hg => ite_gated (hm hcolour rfl rfl rfl) hg colormod_eq
    dpflags := fun hg => (if_neg fun e => hg e.1).trans
      (ite_gated (hm hdp rfl rfl rfl) hg not_not.1)
    tagentity := fun hg => ite_gated (hm htag rfl rfl rfl) hg
      fun e => not_not.1 fun e' => e (.inl e')
    tagindex := fun hg => ite_gated (hm htag rfl rfl rfl) hg
      fun e => not_not.1 fun e' => e (.inr e')
    light := fun hg => ite_gated (hm hlight rfl rfl rfl) hg
      fun e => (light_eq fun e' => e (.inl e')).1
    lightstyle := fun hg => ite_gated (hm hlight rfl rfl rfl) hg
      fun e => (light_eq fun e' => e (.inl e')).2
    lightpflags := fun hg => ite_gated (hm hlight rfl rfl rfl) hg
      fun e => h.light hg (fun e' => e (.inl e')) (not_not.1 fun e' => e (.inr e')) }

/-! ### The message -/

/-- The client reads the byte of more bits whenever there are any. -/
theorem qwSentMorebits_gate {coordtype : QByte} (h : QwSynced protext old new)
    (hne : qwSentMorebits protext force old (qwLeft coordtype v old new) ≠ 0) :
    protext &&& pextMorebits ≠ 0 := by
  intro hmask
  have hmask' := hmask
  unfold pextMorebits at hmask
  simp only [BitVec.ofNat_eq_ofNat, and_or_eq_zero] at hmask
  obtain ⟨⟨⟨⟨⟨⟨⟨⟨hscale, htrans⟩, hfatness⟩, hhexen2⟩, hcolourmod⟩, hdpflags⟩, hmodeldbl⟩, hdbl⟩, hdbl2⟩ := hmask
  have htag : ¬((new.tagentity ≠ old.tagentity ∨ new.tagindex ≠ old.tagindex) ∧
      protext &&& pextSetattachment ≠ 0) := fun e => (h.tag e.1 e.2).2 hmask'
  have hnumber : new.number.toNat < 512 := by
    have hn := h.number
    by_contra hbig
    by_cases h1024 : 1024 ≤ new.number.toNat
    · exact hn.dbl2 h1024 hdbl2
    · exact hn.dbl (by omega) hdbl
  have h0 : qwMorebits protext force old (qwLeft coordtype v old new) = 0#32 := by
    have htag' : ¬(((qwLeft coordtype v old new).tagentity ≠ old.tagentity ∨
      (qwLeft coordtype v old new).tagindex ≠ old.tagindex) ∧
      protext &&& pextSetattachment ≠ 0) := htag
    unfold qwMorebits orIf
    simp only [htag', if_false]
    simp [hscale, htrans, hfatness, hhexen2, hcolourmod, hdpflags, hmodeldbl]
  have h512 : ¬512 ≤ (qwLeft coordtype v old new).number := by
    rw [le_def]
    exact not_le.2 hnumber
  have h1024 : ¬1024 ≤ (qwLeft coordtype v old new).number := by
    rw [le_def]
    exact not_le.2 (lt_trans hnumber (by decide))
  have h1536 : ¬1024 + 512 ≤ (qwLeft coordtype v old new).number := by
    rw [le_def]
    exact not_le.2 (lt_trans hnumber (by decide))
  rw [qwSentMorebits, h0, qwNumberBits, orIf_neg h1024, orIf_neg fun e => by tauto] at hne
  exact hne rfl

/-- What the client does with a delta behind its word, from a buffer with the sizes `prim`. -/
def qwParseRest (protext ezext incomingSequence : BitVec 32) (prim : Netprim) (base : EntityState)
    (word : BitVec 32) : MsgReader EntityState := do
  let (bits, morebits) ← qwReadBits protext word
  let got := { base with
    number := qwNumber protext word morebits, sequence := incomingSequence }
  let got ← qwReadScalars protext bits morebits got
  let got ← qwReadVectors bits (qwCoordtype prim ezext) prim.anglesize.toNat got
  qwReadExtended protext morebits got

/-- The message behind its word. -/
theorem qwRest_roundTrip {bits morebits : BitVec 32}
    {origin angles : Fin 3 → BitVec 32} {left : EntityState}
    (base : EntityState) (incomingSequence : BitVec 32) (hready : QwBitsReady bits morebits)
    (hgated : QwGated protext morebits) (hgate : morebits ≠ 0 → protext &&& pextMorebits ≠ 0)
    (horigin : ∀ i, RoundTrip (szWrite (coordBytes (v.origin i).1 (coordSize (qwCoordtype prim ezext))))
      (msgReadCoord (qwCoordtype prim ezext)) (origin i))
    (hangles : ∀ i, RoundTrip (szWrite (coordBytes (v.angles i).1 prim.anglesize.toNat))
      (msgReadAngle prim.anglesize.toNat) (angles i))
    (htag : morebits &&& uTaginfo ≠ 0 → left.tagentity.toNat < 0x8000)
    (hnumber : qwNumber protext (qwWord left.number bits) morebits = left.number) :
    RoundTrip (do
      qwWriteBits bits morebits
      qwWriteScalars bits morebits left
      qwWriteVectors bits (qwCoordtype prim ezext) prim.anglesize.toNat v
      qwWriteExtended morebits left)
      (qwParseRest protext ezext incomingSequence prim base (qwWord left.number bits))
      (qwDecoded protext bits morebits incomingSequence origin angles base left) := by
  unfold qwParseRest
  refine (qwBits_roundTrip left.number hready hgate).bind ?_
  dsimp only
  rw [hnumber]
  refine (scalars_roundTrip hgated left _).bind ?_
  refine (vectors_roundTrip _ horigin hangles).bind ?_
  exact extended_roundTrip hgated left _ htag

/-- **The message of a delta comes back.** -/
theorem qwMessage_takes (base : EntityState) (hv : qwVectors prim ezext old new = some v)
    (h : QwSynced protext old new) :
    let left := qwLeft (qwCoordtype prim ezext) v old new
    let bits := qwSentBits protext force v old left
    let morebits := qwSentMorebits protext force old left
    ∃ xs, xs ≠ [] ∧ sink.Emits (qwWriteMessage (qwCoordtype prim ezext) prim.anglesize.toNat bits
      morebits v left) xs () ∧ ∀ incomingSequence,
      (netprimSource prim).Takes (qwParseWordDelta protext ezext incomingSequence base) xs
        (qwDecoded protext bits morebits incomingSequence
          (fun i => (msgFromCoord (v.origin i).1 (qwCoordtype prim ezext)).getD 0)
          (fun i => angleOf prim.anglesize.toNat (v.angles i).1) base left) := by
  intro left bits morebits
  have hready : QwBitsReady bits morebits := qwSentBits_ready protext force v old left
  obtain ⟨ws, hw, hr⟩ := qwWord_roundTrip left.number hready.lt
  have hws : ws ≠ [] := by
    rw [emits_unique hw (msgWriteShort_emits _)]
    exact List.cons_ne_nil _ _
  have horigin (i : Fin 3) : RoundTrip (szWrite (coordBytes (v.origin i).1 (coordSize (qwCoordtype prim ezext))))
      (msgReadCoord (qwCoordtype prim ezext))
      ((msgFromCoord (v.origin i).1 (qwCoordtype prim ezext)).getD 0) := by
    have hc := (qwCoord_spec (qwVectors_spec hv i).1).1
    obtain ⟨x, hx⟩ := isSome_iff_exists.1 (msgToCoord_spec hc).2.2.2
    rw [hx]
    exact coord_roundTrip hc hx
  have hangles (i : Fin 3) : RoundTrip (szWrite (coordBytes (v.angles i).1 prim.anglesize.toNat))
      (msgReadAngle prim.anglesize.toNat) (angleOf prim.anglesize.toNat (v.angles i).1) := by
    obtain ⟨c, hc, e⟩ := bind_eq_some_iff.1 (qwVectors_spec hv i).2
    obtain ⟨c', -, e⟩ := bind_eq_some_iff.1 e
    rw [← some.inj e]
    exact angle_wire_roundTrip hc
  have htag : morebits &&& uTaginfo ≠ 0 → left.tagentity.toNat < 0x8000 := by
    intro e
    rw [show morebits &&& uTaginfo = _ from
      qwSentMorebits_field (by decide) (by decide) (by decide)] at e
    have htag := (qwMorebits_iff protext force old left).2.2.2.2.2.2.2.2.2.1.1 e
    exact (h.tag htag.1 htag.2).1
  have hrest (incomingSequence : BitVec 32) := qwRest_roundTrip base incomingSequence hready
    (qwSentMorebits_gated protext force old left) (qwSentMorebits_gate h) horigin hangles htag
    (qwNumber_eq h.number)
  obtain ⟨rs, hrw, -⟩ := hrest 0
  refine ⟨ws ++ rs, fun e => hws (List.append_eq_nil_iff.1 e).1, hw.seq hrw, fun seq => ?_⟩
  refine hr.restrict.bind (Source.Takes.get_bind fun st ys hst => ?_)
  rw [hst.1]
  exact ((roundTrip_iff hrw).1 (hrest seq)).restrict

/-- Nothing was sent, so the client keeps what it has. -/
theorem QwAgrees.of_unsent {incomingSequence : BitVec 32} {coord angle : BitVec 32 → BitVec 32 → Prop}
    {origin angles : Fin 3 → BitVec 32} {left : EntityState} (hnumber : base.number = left.number)
    (h : QwAgrees protext coord angle (qwDecoded protext 0 0 incomingSequence origin angles base left) left) :
    QwAgrees protext coord angle base left where
  number := hnumber
  modelindex := h.modelindex
  frame := h.frame
  colormap := h.colormap
  skinnum := h.skinnum
  effects := h.effects
  origin i := by
    have e := h.origin i
    match i with
    | 0 => exact e
    | 1 => exact e
    | 2 => exact e
  angles i := by
    have e := h.angles i
    match i with
    | 0 => exact e
    | 1 => exact e
    | 2 => exact e
  scale := h.scale
  trans := h.trans
  fatness := h.fatness
  hexen2flags := h.hexen2flags
  abslight := h.abslight
  colormod := h.colormod
  dpflags hg := by
    have e : (if protext &&& pextDpflags = 0 ∧ base.frame ≠ 0 then base.dpflags ||| renderStep
      else base.dpflags) = left.dpflags := h.dpflags hg
    rwa [if_neg fun e => hg e.1] at e
  tagentity := h.tagentity
  tagindex := h.tagindex
  light := h.light
  lightstyle := h.lightstyle
  lightpflags := h.lightpflags
  effects16 := h.effects16

/-! ### What the client gets -/

/-- There is nothing to send. -/
def QwNothing (protext : BitVec 32) (force : Bool) (v : QwVectors) (old left : EntityState) : Prop :=
  qwBits protext force v old left = 0 ∧ qwMorebits protext force old left = 0 ∧ force = false

instance (protext : BitVec 32) (force : Bool) (v : QwVectors) (old left : EntityState) :
    Decidable (QwNothing protext force v old left) := inferInstanceAs (Decidable (_ ∧ _ ∧ _))

/-- The client of a delta that is read in step holds the decoded state, so that the delta is right
when this state is. -/
theorem qwDelta_iff {coord angle : BitVec 32 → BitVec 32 → Prop}
    (hv : qwVectors prim ezext old new = some v) (h : QwSynced protext old new) :
    let left := qwLeft (qwCoordtype prim ezext) v old new
    QwDelta protext ezext prim force coord angle base old new ↔
      if QwNothing protext force v old left then QwAgrees protext coord angle base left
      else ∀ incomingSequence, QwAgrees protext coord angle (qwDecoded protext (qwSentBits protext force v old left)
          (qwSentMorebits protext force old left) incomingSequence
          (fun i => (msgFromCoord (v.origin i).1 (qwCoordtype prim ezext)).getD 0)
          (fun i => angleOf prim.anglesize.toNat (v.angles i).1) base left) left := by
  intro left
  have hroom (msg : Sizebuf) (hp : msg.prim = prim) (hr : msg.cursize + 40 ≤ msg.maxsize) :
      (svqwWriteDelta old new force protext ezext).run msg = if QwNothing protext force v old left then some (left, msg)
        else ((qwWriteMessage (qwCoordtype prim ezext) prim.anglesize.toNat
          (qwSentBits protext force v old left) (qwSentMorebits protext force old left) v left).run
            msg).map fun r => (left, r.2) := by
    subst hp
    exact svqwWriteDelta_room hv h.modelindex hr h.number.pos h.number.lt
  have hnoroom (msg : Sizebuf) (hp : msg.prim = prim) (hr : msg.maxsize < msg.cursize + 40) :
      (svqwWriteDelta old new force protext ezext).run msg = some (old, msg) := by
    subst hp
    exact svqwWriteDelta_noRoom hv h.modelindex hr
  -- the bytes: none, or those of the message
  obtain ⟨xs, hxs, hempty⟩ : ∃ xs, (∀ msg : Sizebuf, msg.prim = prim →
      msg.cursize + 40 ≤ msg.maxsize → msg.cursize + xs.length ≤ msg.maxsize →
      (svqwWriteDelta old new force protext ezext).run msg = some (left, msg.append xs)) ∧
      if QwNothing protext force v old left then xs = []
      else xs ≠ [] ∧ ∀ incomingSequence,
        (netprimSource prim).Takes (qwParseWordDelta protext ezext incomingSequence base) xs
          (qwDecoded protext (qwSentBits protext force v old left)
            (qwSentMorebits protext force old left) incomingSequence
            (fun i => (msgFromCoord (v.origin i).1 (qwCoordtype prim ezext)).getD 0)
            (fun i => angleOf prim.anglesize.toNat (v.angles i).1) base left) := by
    by_cases h0 : QwNothing protext force v old left
    · refine ⟨[], fun msg hp hr _ => ?_, by rw [if_pos h0]⟩
      rw [hroom msg hp hr, if_pos h0, show msg.append [] = msg from sink.push_nil msg]
    · obtain ⟨xs, hne, hw, hr⟩ := qwMessage_takes base hv h
      refine ⟨xs, fun msg hp hr hfits => ?_, by rw [if_neg h0]; exact ⟨hne, hr⟩⟩
      rw [hroom msg hp hr, if_neg h0, hw msg hfits]
      rfl
  constructor
  · rintro ⟨ys, left', hys, -, hgot⟩
    -- a buffer in which both lists fit
    let msg : Sizebuf := { bufferOf [] (40 + xs.length + ys.length) with prim := prim }
    have e := (hxs msg rfl (by simp [msg, bufferOf]; omega) (by simp [msg, bufferOf]; omega)).symm.trans
      (hys msg rfl (by simp [msg, bufferOf]; omega) (by simp [msg, bufferOf]))
    obtain ⟨rfl, e'⟩ := Prod.mk.inj (some.inj e)
    have hlist : xs = ys := by
      have e := congrArg Sizebuf.contents e'
      rw [contents_append, contents_append] at e
      exact List.append_cancel_left e
    subst hlist
    by_cases h0 : QwNothing protext force v old left
    · rw [if_pos h0] at hempty ⊢
      rwa [if_pos hempty] at hgot
    · rw [if_neg h0] at hempty ⊢
      rw [if_neg hempty.1] at hgot
      intro seq
      obtain ⟨got, hr, ha⟩ := hgot seq
      rwa [netprimSource_takes_unique hr (hempty.2 seq)] at ha
  · intro ha
    refine ⟨xs, left, hxs, hnoroom, ?_⟩
    by_cases h0 : QwNothing protext force v old left
    · rw [if_pos h0] at hempty ha
      rwa [if_pos hempty]
    · rw [if_neg h0] at hempty ha
      rw [if_neg hempty.1]
      exact fun seq => ⟨_, hempty.2 seq, ha seq⟩

/-- **The client gets the state the writer leaves.** For every pair of states and every set of
extensions, when the changes can be sent. -/
theorem svqwWriteDelta_parseDelta {protext ezext : BitVec 32} {prim : Netprim} {force : Bool}
    {old new : EntityState} (hv : (qwVectors prim ezext old new).isSome)
    (h : QwSendable protext force old new) :
    QwDelta protext ezext prim force (CoordArrives (qwCoordtype prim ezext))
      (AngleArrives prim.anglesize.toNat) { old with effects := qwFromeffects protext force old }
      old new := by
  obtain ⟨v, hv⟩ := Option.isSome_iff_exists.1 hv
  refine (qwDelta_iff hv h.toQwSynced).2 ?_
  split
  · rename_i h0
    obtain ⟨hbits, hmore, hforce⟩ := h0
    have e := qwAgrees_decoded 0 0 0 hv h
      (fun f _ _ => by rw [hbits]) (fun f _ _ _ => by rw [hmore])
    exact e.of_unsent (h.same hforce)
  · intro seq
    exact qwAgrees_decoded _ _ seq hv h (fun f he hm => qwSentBits_and he hm)
      (fun f hy he he' => qwSentMorebits_field hy he he')

/-- What a client with `base` holds after the delta. -/
def qwReceived (protext ezext : BitVec 32) (prim : Netprim) (force : Bool) (v : QwVectors)
    (base old new : EntityState) : EntityState :=
  let left := qwLeft (qwCoordtype prim ezext) v old new
  if QwNothing protext force v old left then base
  else qwDecoded protext (qwSentBits protext force v old left) (qwSentMorebits protext force old left)
    0 (fun i => (msgFromCoord (v.origin i).1 (qwCoordtype prim ezext)).getD 0)
    (fun i => angleOf prim.anglesize.toNat (v.angles i).1) base left

theorem QwDelta.received {coord angle : BitVec 32 → BitVec 32 → Prop}
    (h : QwDelta protext ezext prim force coord angle base old new)
    (hv : qwVectors prim ezext old new = some v) (hs : QwSynced protext old new) :
    QwAgrees protext coord angle (qwReceived protext ezext prim force v base old new)
      (qwLeft (qwCoordtype prim ezext) v old new) := by
  have e := (qwDelta_iff hv hs).1 h
  unfold qwReceived
  dsimp only at e ⊢
  split
  · rwa [if_pos ‹_›] at e
  · rw [if_neg ‹_›] at e
    exact e 0

/-- A change of the frame. -/
theorem svqwWriteDelta_parseDelta_frame :
    QwDelta 0 0 floatPrim false (CoordArrives (qwCoordtype floatPrim 0))
      (AngleArrives floatPrim.anglesize.toNat)
      { idleEntity with effects := qwFromeffects 0 false idleEntity }
      idleEntity { idleEntity with frame := 5 } :=
  svqwWriteDelta_parseDelta (by decide)
    { number := ⟨by decide, by decide, by decide, by decide⟩
      modelindex := fun h => absurd rfl h
      tag := fun h => absurd h (by decide)
      same := fun _ => rfl
      modelindex_ne := fun h => absurd rfl h
      frame := fun _ => by decide
      colormap := fun h => absurd rfl h
      skinnum := fun h => absurd rfl h
      light := fun h => absurd rfl h }

/-- Small entities without attachments and large models are read in step. -/
theorem QwSynced.idle (hnumber : new.number = 1) (hmodel : new.modelindex ≤ 255 ∨ protext &&& pextModeldbl ≠ 0)
    (htag : new.tagentity = old.tagentity ∧ new.tagindex = old.tagindex) :
    QwSynced protext old new := by
  refine ⟨⟨?_, ?_, fun h => ?_, fun h => ?_⟩, fun _ h => hmodel.resolve_left fun h' => ?_,
    fun h => by tauto⟩
  · rw [hnumber]
    decide
  · rw [hnumber]
    decide
  · rw [hnumber] at h
    exact absurd h (by decide)
  · rw [hnumber] at h
    exact absurd h (by decide)
  · rw [lt_def] at h
    rw [le_def] at h'
    omega

/-- The coordinate 1/16 has an encoding. -/
theorem vanilla_sixteenth : (qwVectors vanillaPrim 0 idleEntity
    { idleEntity with origin := ![0x3d800000, 0, 0] }).isSome := by
  decide +kernel

/-- **What does not arrive as it is left**: a coordinate between the steps of its format, effects
against those of a baseline, frames and models with too large an index, and light flags that equal
the old style. -/
theorem qwDelta_inexact :
    ¬QwDelta 0 0 vanillaPrim false (· = ·) (· = ·) idleEntity idleEntity
      { idleEntity with origin := ![0x3d800000, 0, 0] } ∧
    ¬QwDelta 0 0 floatPrim true (· = ·) (· = ·) { idleEntity with effects := 1 }
      { idleEntity with effects := 1 } idleEntity ∧
    ¬QwDelta 0 0 floatPrim false (· = ·) (· = ·) idleEntity idleEntity
      { idleEntity with frame := 256 } ∧
    ¬QwDelta pextModeldbl 0 floatPrim false (· = ·) (· = ·) idleEntity idleEntity
      { idleEntity with modelindex := 512 } ∧
    ¬QwDelta pextDpflags 0 floatPrim false (· = ·) (· = ·) { idleEntity with lightpflags := 1 }
      { idleEntity with lightpflags := 1 } idleEntity := by
  have hfloat : qwVectors floatPrim 0 idleEntity idleEntity =
      some ⟨![(0, false), (0, false), (0, false)], ![(0, false), (0, false), (0, false)]⟩ := rfl
  refine ⟨fun h => ?_, fun h => ?_, fun h => ?_, fun h => ?_, fun h => ?_⟩
  · -- 1/16 is rounded to 1/8
    have hv := (Option.some_get vanilla_sixteenth).symm
    have e := (h.received hv (QwSynced.idle rfl (.inl (by decide)) ⟨rfl, rfl⟩)).origin 0
    exact absurd e (by decide +kernel)
  · have e := (h.received hfloat (QwSynced.idle rfl (.inl (by decide)) ⟨rfl, rfl⟩)).effects
    exact absurd e (by decide)
  · have e := (h.received hfloat (QwSynced.idle rfl (.inl (by decide)) ⟨rfl, rfl⟩)).frame
    exact absurd e (by decide)
  · have e := (h.received hfloat (QwSynced.idle rfl (.inr (by decide)) ⟨rfl, rfl⟩)).modelindex
    exact absurd e (by decide)
  · have e := (h.received hfloat (QwSynced.idle rfl (.inl (by decide)) ⟨rfl, rfl⟩)).lightpflags
      (by decide)
    exact absurd e (by decide)

end FteQuake
