import FteQuake.Lib.BinaryFloat
import FteQuake.Common.VarInt

/-!
# Entity states and the wire format of their vectors

The `entity_state_t` of `protocol.h`, less the fields that no modelled function looks at, and the
conversions `MSG_ToCoord`, `MSG_FromCoord`, `MSG_ToAngle` of `common.c` with their readers and
writers. Floats are bit patterns. A conversion to an integer type that cannot hold the result is
undefined in C and fails here, as does `Sys_Error`.

`coord_roundTrip` and `angle_roundTrip` say that a coordinate or angle arrives as what
`MSG_FromCoord` (or the angle reader) makes of its encoding: `wireCoord` and `wireAngle`.
-/

namespace FteQuake

open StreamProgram BitFlags BinaryFloat MsgState Sizebuf List Option BitVec

/-- `entity_state_t`. The members of `u.q1` are fields of the state. -/
structure EntityState where
  number : BitVec 32
  sequence : BitVec 32
  modelindex : BitVec 16
  bonecount : QByte
  boneoffset : BitVec 32
  effects : BitVec 32
  origin : Fin 3 → BitVec 32
  angles : Fin 3 → BitVec 32
  pmovetype : QByte
  msec : QByte
  vangle : Fin 3 → BitVec 16
  movement : Fin 3 → BitVec 16
  velocity : Fin 3 → BitVec 32
  weaponframe : BitVec 16
  gravitydir : Fin 2 → QByte
  traileffectnum : BitVec 16
  emiteffectnum : BitVec 16
  modelindex2 : BitVec 16
  frame : BitVec 16
  baseframe : BitVec 16
  basebone : QByte
  bonecontrol : Fin 5 → BitVec 16
  bodygroup : QByte
  animrate : BitVec 16
  solidsize : BitVec 32
  skinnum : BitVec 32
  colormap : BitVec 16
  glowsize : QByte
  glowcolour : QByte
  scale : QByte
  fatness : QByte
  hexen2flags : QByte
  abslight : QByte
  dpflags : QByte
  colormod : Fin 3 → QByte
  glowmod : Fin 3 → QByte
  trans : QByte
  light : Fin 4 → BitVec 16
  lerpend : BitVec 32
  lightstyle : QByte
  lightpflags : QByte
  tagindex : BitVec 16
  tagentity : BitVec 32

/-- A state whose fields are all 0. -/
def zeroEntity : EntityState where
  number := 0
  sequence := 0
  modelindex := 0
  bonecount := 0
  boneoffset := 0
  effects := 0
  origin _ := 0
  angles _ := 0
  pmovetype := 0
  msec := 0
  vangle _ := 0
  movement _ := 0
  velocity _ := 0
  weaponframe := 0
  gravitydir _ := 0
  traileffectnum := 0
  emiteffectnum := 0
  modelindex2 := 0
  frame := 0
  baseframe := 0
  basebone := 0
  bonecontrol _ := 0
  bodygroup := 0
  animrate := 0
  solidsize := 0
  skinnum := 0
  colormap := 0
  glowsize := 0
  glowcolour := 0
  scale := 0
  fatness := 0
  hexen2flags := 0
  abslight := 0
  dpflags := 0
  colormod _ := 0
  glowmod _ := 0
  trans := 0
  light _ := 0
  lerpend := 0
  lightstyle := 0
  lightpflags := 0
  tagindex := 0
  tagentity := 0

/-- `EZPEXT1_FLOATENTCOORDS`. -/
def ezpext1Floatentcoords : BitVec 32 := 0x00000001

/-- `ES_SOLID_BSP`. -/
def esSolidBsp : BitVec 32 := 31

/-! ## Conversions -/

/-- `COORDTYPE_FIXED_13_3`. -/
def coordtypeFixed13_3 : QByte := 2

/-- `COORDTYPE_FIXED_16_8`. -/
def coordtypeFixed16_8 : QByte := 3

/-- `COORDTYPE_FIXED_28_4`. -/
def coordtypeFixed28_4 : QByte := 4

/-- `COORDTYPE_FLOAT_32`. -/
def coordtypeFloat32 : QByte := 4 ||| 0x80

/-- The type of the coordinates of entities. -/
def qwCoordtype (prim : Netprim) (ezext : BitVec 32) : QByte :=
  if ezext &&& ezpext1Floatentcoords ≠ 0 then coordtypeFloat32 else prim.coordtype

/-- `coordtype & COORDTYPE_SIZE_MASK`. -/
def coordSize (type : QByte) : ℕ := (type &&& 0xf).toNat

/-- The single-precision result of an operation whose exact result is `q`. -/
def single (q : ℚ) : ℚ := roundTo 24 (-149) q

/-- `f*k + 0.5f`, or `f*k - 0.5f` when `f` is negative, converted to an integer. -/
def scaled (f : BitVec 32) (k : ℚ) : Int :=
  trunc (single (if 0 ≤ val f then single (val f * k) + 1 / 2 else single (val f * k) - 1 / 2))

/-- The conversion of a finite float, by way of `t`, to a signed type of `w` bits. -/
def toSigned (w : ℕ) (f : BitVec 32) (t : Int) : Option (BitVec w) :=
  if IsFinite f ∧ -2 ^ w ≤ 2 * t ∧ 2 * t < 2 ^ w then some (BitVec.ofInt w t) else none

/-- `MSG_ToCoord`: the four bytes of a `coorddata`, low first. -/
def msgToCoord (f : BitVec 32) (type : QByte) : Option (BitVec 32) :=
  if type = coordtypeFixed13_3 then (toSigned 16 f (scaled f 8)).map (BitVec.setWidth 32)
  else if type = coordtypeFixed16_8 then do
    let b2 ← toSigned 16 f (trunc (val f))
    let b ← toSigned 32 f (trunc (single (val f * 255)))
    return b2.setWidth 32 ||| ((BitVec.ofInt 8 (b.toInt.tmod 255)).setWidth 32) <<< 16
  else if type = coordtypeFixed28_4 then (toSigned 16 f (scaled f 16)).map (BitVec.signExtend 32)
  else if type = coordtypeFloat32 then some f
  else none

/-- `MSG_FromCoord`. Divisions by a power of two are exact. -/
def msgFromCoord (c : BitVec 32) (type : QByte) : Option (BitVec 32) :=
  if type = coordtypeFixed13_3 then some (ofRat ((c.setWidth 16).toInt / 8))
  else if type = coordtypeFixed16_8 then
    let fraction := roundTo 53 (-1074) (((c >>> 16).setWidth 8).toNat * roundTo 53 (-1074) (1 / 255))
    some (ofRat (roundTo 53 (-1074) ((c.setWidth 16).toInt + fraction)))
  else if type = coordtypeFixed28_4 then some (ofRat (single c.toInt / 16))
  else if type = coordtypeFloat32 then some c
  else none

/-- `MSG_ToAngle`. The constant `256.0f/360.0f` is rounded. -/
def msgToAngle (f : BitVec 32) (bytes : ℕ) : Option (BitVec 32) :=
  match bytes with
  | 1 => (toSigned 32 f (scaled f (single (256 / 360)))).map (· &&& 255)
  | 2 => (toSigned 32 f (scaled f (single (65536 / 360)))).map (· &&& 65535)
  | 4 => some f
  | _ => none

/-! ## Readers and writers -/

/-- `MSG_ReadData`. -/
def msgReadData (len : ℕ) : MsgReader (List QByte) :=
  (List.range len).mapM fun _ => BitVec.ofInt 8 <$> msgReadByte

/-- The `len` low bytes of a `coorddata`. -/
def coordBytes (c : BitVec 32) (len : ℕ) : List QByte := (floatBytes c).take len

/-- `MSG_WriteCoord`, to a buffer with coordinates of a type. -/
def msgWriteCoord (type : QByte) (f : BitVec 32) : MsgWriter Unit := do
  let c ← StateT.lift (msgToCoord f type)
  szWrite (coordBytes c (coordSize type))

/-- `MSG_ReadCoord`, from a buffer with coordinates of a type. -/
def msgReadCoord (type : QByte) : MsgReader (BitVec 32) := do
  let type := if type = 0 then coordtypeFixed13_3 else type
  if coordSize type > 4 then return 0
  else
    let bs ← msgReadData (coordSize type)
    StateT.lift (msgFromCoord (decodeLong bs) type)

/-- `MSG_ReadCoordFloat`. -/
def msgReadCoordFloat : MsgReader (BitVec 32) := do
  let bs ← msgReadData (coordSize coordtypeFloat32)
  StateT.lift (msgFromCoord (decodeLong bs) coordtypeFloat32)

/-- `MSG_ReadAngle16`: the double-precision product is exact. -/
def msgReadAngle16 : MsgReader (BitVec 32) :=
  (fun s : Int => ofRat (s * (360 / 65536))) <$> msgReadShort

/-- `MSG_ReadAngle`, from a buffer with angles of a size. -/
def msgReadAngle (anglesize : ℕ) : MsgReader (BitVec 32) :=
  match if anglesize = 0 then 1 else anglesize with
  | 2 => msgReadAngle16
  | 4 => msgReadFloat
  | 1 => (fun s : Int => ofRat (s * (360 / 256))) <$> msgReadChar
  | _ => failure

/-- `MSG_WriteAngle16`. -/
def msgWriteAngle16 (f : BitVec 32) : MsgWriter Unit := do
  let c ← StateT.lift (msgToAngle f 2)
  msgWriteShort c.toInt

/-- `MSG_WriteAngle`, to a buffer with angles of a size. -/
def msgWriteAngle (anglesize : ℕ) (f : BitVec 32) : MsgWriter Unit :=
  match anglesize with
  | 2 => msgWriteAngle16 f
  | 4 => msgWriteFloat f
  | 1 => do
    let c ← StateT.lift (msgToAngle f 1)
    msgWriteByte c.toInt
  | _ => failure

/-! ## What arrives -/

/-- What the angle reader makes of an encoded angle. -/
def angleOf (anglesize : ℕ) (c : BitVec 32) : BitVec 32 :=
  match anglesize with
  | 1 => ofRat ((c.setWidth 8).toInt * (360 / 256))
  | 2 => ofRat ((c.setWidth 16).toInt * (360 / 65536))
  | _ => c

/-- The coordinate that arrives when `f` is sent. -/
def wireCoord (type : QByte) (f : BitVec 32) : Option (BitVec 32) := do
  let c ← msgToCoord f type
  msgFromCoord c type

/-- The angle that arrives when `f` is sent. -/
def wireAngle (anglesize : ℕ) (f : BitVec 32) : Option (BitVec 32) :=
  (msgToAngle f anglesize).map (angleOf anglesize)

theorem msgReadData_takes (xs : List QByte) : source.Takes (msgReadData xs.length) xs xs := by
  have h := Source.Takes.mapM (R := source) (f := fun _ => BitVec.ofInt 8 <$> msgReadByte)
    (g := fun i => [xs.getD i 0]) (v := fun i => xs.getD i 0) (List.range xs.length) fun i _ => by
      have e := (msgReadByte_takes (xs.getD i 0)).map (BitVec.ofInt 8)
      rwa [ofInt_toNat] at e
  have hmap : (List.range xs.length).map (fun i => xs.getD i 0) = xs := by
    apply List.ext_getElem (by simp)
    intro i _ hi
    simp [List.getElem?_eq_getElem hi]
  rwa [← List.map_eq_flatMap, hmap] at h

variable {c f x : BitVec 32} {type : QByte}

/-- The bytes of a `coorddata` whose high bytes are 0. -/
theorem decodeLong_coordBytes {n : ℕ} (hn : n = 2 ∨ n = 3 ∨ n = 4)
    (hc : c.toNat < 2 ^ (8 * n)) : decodeLong (coordBytes c n) = c := by
  have h0 : (0 : QByte).toNat = 0 := rfl
  apply eq_of_toNat_eq
  rcases hn with rfl | rfl | rfl
  all_goals
    simp only [h0, decodeLong, coordBytes, floatBytes, take_succ_cons, take_zero, getD_cons_zero, getD_cons_succ,
      getD_nil, toNat_ofNat, toNat_setWidth, toNat_ushiftRight, Nat.shiftLeft_eq, Nat.shiftRight_eq_div_pow]
    omega

/-- The types of coordinates, and the size of an encoded coordinate. -/
theorem msgToCoord_spec (h : msgToCoord f type = some c) :
    type ≠ 0 ∧ (coordSize type = 2 ∨ coordSize type = 3 ∨ coordSize type = 4) ∧
      c.toNat < 2 ^ (8 * coordSize type) ∧ (msgFromCoord c type).isSome := by
  unfold msgToCoord at h
  split_ifs at h with h2 h3 h4 h84
  · subst h2
    obtain ⟨b, -, rfl⟩ := map_eq_some_iff.1 h
    refine ⟨by decide, by decide, ?_, rfl⟩
    rw [toNat_setWidth_of_le (by omega)]
    exact b.isLt
  · subst h3
    obtain ⟨b2, -, h⟩ := bind_eq_some_iff.1 h
    obtain ⟨b, -, h⟩ := bind_eq_some_iff.1 h
    cases h
    refine ⟨by decide, by decide, ?_, rfl⟩
    rw [toNat_or]
    apply Nat.or_lt_two_pow
    · rw [toNat_setWidth_of_le (by omega)]
      exact lt_trans b2.isLt (by decide)
    · rw [toNat_shiftLeft, toNat_setWidth_of_le (by omega), Nat.shiftLeft_eq]
      have := (BitVec.ofInt 8 (b.toInt.tmod 255)).isLt
      exact lt_of_le_of_lt (Nat.mod_le _ _) (show _ < 2 ^ 24 by omega)
  · subst h4
    exact ⟨by decide, by decide, c.isLt, rfl⟩
  · subst h84
    exact ⟨by decide, by decide, c.isLt, rfl⟩

/-- **A coordinate goes through the wire format.** -/
theorem coord_roundTrip (hc : msgToCoord f type = some c) (hx : msgFromCoord c type = some x) :
    RoundTrip (szWrite (coordBytes c (coordSize type))) (msgReadCoord type) x := by
  obtain ⟨h0, hsize, hlt, -⟩ := msgToCoord_spec hc
  refine ⟨_, szWrite_emits _, ?_⟩
  have hlen : (coordBytes c (coordSize type)).length = coordSize type := by
    rw [coordBytes, length_take, floatBytes]
    simp only [length_cons, length_nil]
    omega
  have hread := msgReadData_takes (coordBytes c (coordSize type))
  rw [hlen] at hread
  unfold msgReadCoord
  simp only [if_neg h0]
  rw [if_neg (by omega), ← append_nil (coordBytes c (coordSize type))]
  refine hread.bind ?_
  rw [decodeLong_coordBytes hsize hlt, hx]
  exact Source.Takes.pure x

/-- **An angle goes through the wire format.** -/
theorem angle_wire_roundTrip {anglesize : ℕ} (hc : msgToAngle f anglesize = some c) :
    RoundTrip (szWrite (coordBytes c anglesize)) (msgReadAngle anglesize)
      (angleOf anglesize c) := by
  refine ⟨_, szWrite_emits _, ?_⟩
  unfold msgToAngle at hc
  split at hc
  · exact (msgReadChar_takes _).map _
  · have h := (msgReadShort_takes (c.setWidth 8) ((c >>> 8).setWidth 8)).map fun s : Int => ofRat (s * (360 / 65536))
    have e : decodeShort [c.setWidth 8, (c >>> 8).setWidth 8] = c.setWidth 16 := by
      apply eq_of_toNat_eq
      simp only [decodeShort, getD_cons_zero, getD_cons_succ, toNat_ofNat, toNat_setWidth, toNat_ushiftRight,
        Nat.shiftLeft_eq, Nat.shiftRight_eq_div_pow]
      omega
    rwa [e] at h
  · exact msgReadFloat_floatBytes c
  · exact absurd hc (by simp)

/-- A writer behind a conversion that is defined. -/
theorem lift_some_bind {σ α β : Type} (a : α) (f : α → StateT σ Option β) :
    (StateT.lift (some a) >>= f) = f a := rfl

theorem msgCoord_roundTrip (h : wireCoord type f = some x) :
    RoundTrip (msgWriteCoord type f) (msgReadCoord type) x := by
  obtain ⟨c, hc, hx⟩ := bind_eq_some_iff.1 h
  rw [msgWriteCoord, hc, lift_some_bind]
  exact coord_roundTrip hc hx

theorem msgAngle_roundTrip {anglesize : ℕ} (h : wireAngle anglesize f = some x) :
    RoundTrip (msgWriteAngle anglesize f) (msgReadAngle anglesize) x := by
  obtain ⟨c, hc, rfl⟩ := map_eq_some_iff.1 h
  have hcut {w : ℕ} (hw : w ≤ 32) : BitVec.ofInt w c.toInt = c.setWidth w :=
    signExtend_eq_setWidth_of_le c hw
  match anglesize, hc with
  | 1, hc =>
    have e : msgWriteAngle 1 f = msgWriteByte c.toInt := by
      rw [msgWriteAngle, hc, lift_some_bind]
    have hr := msgReadChar_byteBytes c.toInt
    rw [hcut (by omega)] at hr
    rw [e]
    exact ⟨_, msgWriteByte_emits _, hr.map fun s : Int => ofRat (s * (360 / 256))⟩
  | 2, hc =>
    have e : msgWriteAngle 2 f = msgWriteShort c.toInt := by
      rw [msgWriteAngle, msgWriteAngle16, hc, lift_some_bind]
    have hr := (msgShort_roundTrip c.toInt).map fun s : Int => ofRat (s * (360 / 65536))
    rw [hcut (by omega)] at hr
    rw [e]
    exact hr
  | 4, hc =>
    obtain rfl := some.inj hc
    exact float_roundTrip f

/-- `got` is the coordinate `left`, possibly with the other sign of zero, or what `left` is on the
wire. -/
def CoordArrives (type : QByte) (got left : BitVec 32) : Prop :=
  got = left ∨ ¬Differ got left ∨ wireCoord type left = some got

/-- `got` is the angle `left`, or what `left` is on the wire. -/
def AngleArrives (anglesize : ℕ) (got left : BitVec 32) : Prop :=
  got = left ∨ wireAngle anglesize left = some got

/-- The read states with the primitive sizes `prim`. -/
def netprimSource (prim : Netprim) : Source MsgState QByte :=
  source.restrict (fun st => st.msgReadmsg.prim = prim) fun st n h =>
    (congrArg (fun buf => buf.prim) (msgReadmsg_skip st n)).trans h

theorem netprimSource_takes_unique {prim : Netprim} {r : MsgReader EntityState} {xs : List QByte} {a b : EntityState}
    (h : (netprimSource prim).Takes r xs a) (h' : (netprimSource prim).Takes r xs b) : a = b := by
  obtain ⟨st, hst⟩ : ∃ st, (netprimSource prim).ahead st (xs ++ []) := by
    refine ⟨⟨{ bufferOf xs 0 with prim := prim }, bufferOf [] 0, .netMessage, false⟩, rfl, rfl, rfl,
      0, rfl, ?_, ?_⟩
    · rw [append_nil]
      exact Nat.zero_add _
    · rw [append_nil]
      exact Mem.slice_blit_self _ 0 xs
  have e := (h st [] hst).symm.trans (h' st [] hst)
  exact (Prod.mk.inj (some.inj e)).1

/-! ## Sizes and entities to try -/

/-- Coordinates and angles as floats. -/
def floatPrim : Netprim := ⟨coordtypeFloat32, 4, 0⟩

/-- Vanilla coordinates and angles. -/
def vanillaPrim : Netprim := ⟨coordtypeFixed13_3, 1, 0⟩

/-- An entity without a model at the origin. -/
def idleEntity : EntityState := { zeroEntity with number := 1 }

/-! ## Fields of a decoded state -/

theorem setWidth_setWidth_of_lt {x : BitVec 16} (h : x < 256) : (x.setWidth 8).setWidth 16 = x := by
  have h256 : (256 : BitVec 16).toNat = 256 := rfl
  rw [lt_def, h256] at h
  apply eq_of_toNat_eq
  simp only [toNat_setWidth]
  omega

/-- A field that is right when it is sent, and did not change when it is not. -/
theorem ite_field {α : Type} {p : Prop} [Decidable p] {sent old new : α} (h : p → sent = new)
    (h' : ¬p → new = old) : (if p then sent else old) = new := by
  split_ifs with hp
  · exact h hp
  · exact (h' hp).symm

/-- A field that is sent when it differs. -/
theorem ite_sent {α : Type} {p : Prop} [Decidable p] {sent old new : α} (hp : p ↔ new ≠ old)
    (h : new ≠ old → sent = new) : (if p then sent else old) = new :=
  ite_field (fun e => h (hp.1 e)) fun e => not_not.1 (mt hp.2 e)

/-- A field of an extension that the client has. -/
theorem ite_gated {α : Type} {p q g : Prop} [Decidable p] {old new : α} (hp : p ↔ q ∧ g) (hg : g)
    (hq : ¬q → new = old) : (if p then new else old) = new :=
  ite_field (fun _ => rfl) fun e => hq fun h => e (hp.2 ⟨h, hg⟩)

theorem ite_prod {α β : Type} {p : Prop} [Decidable p] {a c : α} {b d : β} :
    (if p then (a, b) else (c, d)) = (if p then a else c, if p then b else d) := by
  split <;> rfl

end FteQuake
