import FteQuake.Lib.SortedUpdate
import FteQuake.Tv.MvdPlayers

/-!
# Packet entities in the proxy

`ParsePacketEntities` of `fteqtv/parse.c`, with `readentitynum`, `ParseEntityDelta` and `ExpandFrame`. An access
outside an array of a frame, or outside the table of entities, is `none`.

The entities of a message are merged into those of a frame of the ring (`SortedUpdate.merge`). The number of an
entity is not compared with the size of the table of entities, and a delta against the slot that it is
written to is made in place: `packetEntities_iff` says for which messages the new frame is the old one, updated.
-/

namespace FteQuake

open List Option Function

namespace PacketEntities

open MvdPlayers (Byte readByte readShort)
open SortedUpdate (Sorted)

/-! ## Numbers and flags -/

/-- `MAX_ENTITIES` of fteqtv. -/
def maxEntities : ℕ := 512

/-- `ENTITY_FRAMES`. -/
def entityFrames : ℕ := 64

/-- The formats of coordinates and angles. -/
structure Formats (F : Type) where
  /-- the `float` of these bits -/
  float : BitVec 32 → F
  /-- `(short)x / 8.0` -/
  coord : BitVec 16 → F
  /-- `(x * 360.0) / 0x10000` -/
  angle16 : BitVec 16 → F
  /-- `(x * 360.0) / 0x100` -/
  angle8 : Byte → F

def pextFloatcoords : ℕ := 15

def uOrigin1 : ℕ := 9
def uOrigin2 : ℕ := 10
def uOrigin3 : ℕ := 11
def uAngle2 : ℕ := 12
def uFrame : ℕ := 13
def uRemove : ℕ := 14
def uMorebits : ℕ := 15
def uAngle1 : ℕ := 0
def uAngle3 : ℕ := 1
def uModel : ℕ := 2
def uColormap : ℕ := 3
def uSkin : ℕ := 4
def uEffects : ℕ := 5
def uxEvenmore : ℕ := 7
def uxScale : ℕ := 16
def uxAlpha : ℕ := 17
def uxFatness : ℕ := 18
def uxModeldbl : ℕ := 19
def uxEntitydbl : ℕ := 21
def uxEntitydbl2 : ℕ := 22
def uxYetmore : ℕ := 23
def uxDrawflags : ℕ := 24
def uxAbslight : ℕ := 25
def uxColourmod : ℕ := 26
def uxDpflags : ℕ := 27
def uxTaginfo : ℕ := 28
def uxLight : ℕ := 29
def uxEffects16 : ℕ := 30

/-! ## Reading -/

/-- `ReadLong`. -/
def readLong (m : List Byte) : BitVec 32 × List Byte :=
  let s1 := readShort m
  let s2 := readShort s1.2
  (s1.1.setWidth 32 ||| (s2.1.setWidth 32 <<< 16), s2.2)

/-- The flags behind those of the short. -/
def readMore (flags : BitVec 32) (m : List Byte) : BitVec 32 × List Byte :=
  let b := readByte m
  let flags := flags ||| b.1.setWidth 32
  let even := if flags.getLsbD uxEvenmore then readByte b.2 else (0, b.2)
  let flags := flags ||| (even.1.setWidth 32 <<< 16)
  let yet := if flags.getLsbD uxYetmore then readByte even.2 else (0, even.2)
  (flags ||| (yet.1.setWidth 32 <<< 24), yet.2)

/-- `readentitynum`. -/
def readentitynum (m : List Byte) : (ℕ × BitVec 32) × List Byte :=
  let w := readShort m
  if w.1 = 0 then ((0, 0), w.2)
  else
    let flags := w.1.setWidth 32 &&& ~~~511#32
    let more := if flags.getLsbD uMorebits then readMore flags w.2 else (flags, w.2)
    let entnum := (w.1 &&& 511#16).toNat
    let entnum := if more.1.getLsbD uxEntitydbl then entnum + 512 else entnum
    let entnum := if more.1.getLsbD uxEntitydbl2 then entnum + 1024 else entnum
    ((entnum, more.1), more.2)

/-- `entity_state_t`. -/
structure EntityState (F : Type) where
  frame : Byte
  modelindex : BitVec 16
  colormap : Byte
  skinnum : Byte
  origin : Fin 3 → F
  angles : Fin 3 → F
  effects : BitVec 16
  scale : Byte
  fatness : Byte
  colormod : Fin 3 → Byte
  alpha : Byte
  light : Fin 4 → BitVec 16
  lightstyle : Byte
  lightpflags : Byte
  abslight : Byte
  drawflags : Byte
  dpflags : Byte
  tagindex : Byte
  tagentity : BitVec 16

/-- A field of an entity: when it is sent, and how it is read. -/
structure EntityField (F : Type) where
  sent : BitVec 32 → Bool
  read : List Byte → (EntityState F → EntityState F) × List Byte
  shorter : ∀ m, (read m).2.length ≤ m.length

namespace EntityField

variable {F : Type}

theorem readByte_shorter (m : List Byte) : (readByte m).2.length ≤ m.length := by
  rw [readByte, length_tail]
  exact Nat.sub_le _ _

theorem readShort_shorter (m : List Byte) : (readShort m).2.length ≤ m.length :=
  (readByte_shorter _).trans (readByte_shorter m)

/-- A field that is a byte. -/
def byte (sent : BitVec 32 → Bool) (set : EntityState F → Byte → EntityState F) : EntityField F where
  sent := sent
  read m := ((set · (readByte m).1), (readByte m).2)
  shorter := readByte_shorter

/-- A field that is a short. -/
def short (sent : BitVec 32 → Bool) (set : EntityState F → BitVec 16 → EntityState F) : EntityField F where
  sent := sent
  read m := ((set · (readShort m).1), (readShort m).2)
  shorter := readShort_shorter

/-- A coordinate, as `ReadCoord` reads it. -/
def coord (A : Formats F) (pext1 : BitVec 32) (bit : ℕ) (i : Fin 3) : EntityField F where
  sent flags := flags.getLsbD bit
  read m :=
    if pext1.getLsbD pextFloatcoords then
      (fun e => { e with origin := Function.update e.origin i (A.float (readLong m).1) }, (readLong m).2)
    else (fun e => { e with origin := Function.update e.origin i (A.coord (readShort m).1) }, (readShort m).2)
  shorter m := by
    split
    · exact (readShort_shorter _).trans (readShort_shorter m)
    · exact readShort_shorter m

/-- An angle, as `ReadAngle` reads it. -/
def angle (A : Formats F) (pext1 : BitVec 32) (bit : ℕ) (i : Fin 3) : EntityField F where
  sent flags := flags.getLsbD bit
  read m :=
    if pext1.getLsbD pextFloatcoords then
      (fun e => { e with angles := Function.update e.angles i (A.angle16 (readShort m).1) }, (readShort m).2)
    else (fun e => { e with angles := Function.update e.angles i (A.angle8 (readByte m).1) }, (readByte m).2)
  shorter m := by
    split
    · exact readShort_shorter m
    · exact readByte_shorter m

/-- Reading a field, if it is sent. -/
def parse (flags : BitVec 32) (r : EntityState F × List Byte) (f : EntityField F) : EntityState F × List Byte :=
  if f.sent flags then ((f.read r.2).1 r.1, (f.read r.2).2) else r

/-- What is behind a field. -/
def skip (flags : BitVec 32) (m : List Byte) (f : EntityField F) : List Byte :=
  if f.sent flags then (f.read m).2 else m

end EntityField

variable {F : Type} (A : Formats F)

open EntityField in
/-- The fields, in the order of `ParseEntityDelta`. -/
def fields (pext1 : BitVec 32) : List (EntityField F) :=
  [byte (fun flags => flags.getLsbD uModel && flags.getLsbD uxModeldbl)
      fun e x => { e with modelindex := x.setWidth 16 ||| 0x100 },
    byte (fun flags => flags.getLsbD uModel && !flags.getLsbD uxModeldbl)
      fun e x => { e with modelindex := x.setWidth 16 },
    short (fun flags => !flags.getLsbD uModel && flags.getLsbD uxModeldbl) fun e x => { e with modelindex := x },
    byte (·.getLsbD uFrame) fun e x => { e with frame := x },
    byte (·.getLsbD uColormap) fun e x => { e with colormap := x },
    byte (·.getLsbD uSkin) fun e x => { e with skinnum := x },
    byte (·.getLsbD uEffects) fun e x => { e with effects := (e.effects &&& 0xff00) ||| x.setWidth 16 },
    coord A pext1 uOrigin1 0,
    angle A pext1 uAngle1 0,
    coord A pext1 uOrigin2 1,
    angle A pext1 uAngle2 1,
    coord A pext1 uOrigin3 2,
    angle A pext1 uAngle3 2,
    byte (·.getLsbD uxScale) fun e x => { e with scale := x },
    byte (·.getLsbD uxAlpha) fun e x => { e with alpha := x },
    byte (·.getLsbD uxFatness) fun e x => { e with fatness := x },
    byte (·.getLsbD uxDrawflags) fun e x => { e with drawflags := x },
    byte (·.getLsbD uxAbslight) fun e x => { e with abslight := x },
    byte (·.getLsbD uxColourmod) fun e x => { e with colormod := Function.update e.colormod 0 x },
    byte (·.getLsbD uxColourmod) fun e x => { e with colormod := Function.update e.colormod 1 x },
    byte (·.getLsbD uxColourmod) fun e x => { e with colormod := Function.update e.colormod 2 x },
    byte (·.getLsbD uxDpflags) fun e x => { e with dpflags := x },
    short (·.getLsbD uxTaginfo) fun e x => { e with tagentity := x },
    short (·.getLsbD uxTaginfo) fun e x => { e with tagindex := x.setWidth 8 },
    short (·.getLsbD uxLight) fun e x => { e with light := Function.update e.light 0 x },
    short (·.getLsbD uxLight) fun e x => { e with light := Function.update e.light 1 x },
    short (·.getLsbD uxLight) fun e x => { e with light := Function.update e.light 2 x },
    short (·.getLsbD uxLight) fun e x => { e with light := Function.update e.light 3 x },
    byte (·.getLsbD uxLight) fun e x => { e with lightstyle := x },
    byte (·.getLsbD uxLight) fun e x => { e with lightpflags := x },
    byte (·.getLsbD uxEffects16) fun e x => { e with effects := (e.effects &&& 0x00ff) ||| (x.setWidth 16 <<< 8) }]

/-- `ParseEntityDelta`, but for the leafs. -/
def parseEntityDelta (pext1 flags : BitVec 32) (old : EntityState F) (m : List Byte) : EntityState F × List Byte :=
  (fields A pext1).foldl (EntityField.parse flags) (old, m)

/-- The flags that make `ParseEntityDelta` put the entity into leafs. -/
def relinks (flags : BitVec 32) : Bool :=
  flags.getLsbD uOrigin1 || flags.getLsbD uOrigin2 || flags.getLsbD uOrigin3 || flags.getLsbD uModel

/-! ## Frames -/

/-- `frame_t`, without `oldframe`. What `entnums` and `ents` give from `maxents` on is what new memory will hold. -/
structure Frame (F : Type) where
  numents : ℕ
  maxents : ℕ
  ents : ℕ → EntityState F
  entnums : ℕ → ℕ

/-- An entity of a frame. -/
def Frame.entry (f : Frame F) (i : ℕ) : ℕ × EntityState F := (f.entnums i, f.ents i)

/-- `ExpandFrame`, which always finds memory. -/
def expandFrame (newmax : ℕ) (f : Frame F) : Frame F :=
  if newmax < f.maxents then f else { f with maxents := newmax + 16 }

/-- What of `sv_t` the function uses; `entity[i].baseline` is `baseline i`. -/
structure Sv (F : Type) where
  usequakeworldprotocols : Bool
  incomingSequence : BitVec 32
  pext1 : BitVec 32
  baseline : ℕ → EntityState F
  frame : ℕ → Frame F

/-- What stays over the loop: the slots of `newframe` and `oldframe`, and `oldcount`. -/
structure Call (F : Type) where
  pext1 : BitVec 32
  baseline : ℕ → EntityState F
  newframe : ℕ
  oldframe : Option ℕ
  oldcount : ℕ

/-- What changes in the loop. -/
structure Merge (F : Type) where
  frame : ℕ → Frame F
  newindex : ℕ
  oldindex : ℕ

namespace Merge

variable (c : Call F) (s : Merge F)

/-- `ExpandFrame(newindex, newframe)`. -/
def expand : Merge F :=
  { s with frame := Function.update s.frame c.newframe (expandFrame s.newindex (s.frame c.newframe)) }

/-- The entity at `oldindex`. -/
def oldEntry : Option (ℕ × EntityState F) :=
  c.oldframe.bind fun j =>
    if s.oldindex < (s.frame j).maxents then some ((s.frame j).entry s.oldindex) else none

/-- An entity is stored at `newindex`, which goes on. -/
def put (num : ℕ) (e : EntityState F) : Option (Merge F) :=
  let f := s.frame c.newframe
  if s.newindex < f.maxents then
    some { s with
      frame := Function.update s.frame c.newframe { f with
        ents := Function.update f.ents s.newindex e
        entnums := Function.update f.entnums s.newindex num }
      newindex := s.newindex + 1 }
  else none

def skipOld : Merge F := { s with oldindex := s.oldindex + 1 }

/-- An entity is copied to the new frame. -/
def propagate : Option (Merge F) :=
  ((s.expand c).oldEntry c).bind fun e => ((s.expand c).put c e.1 e.2).map skipOld

/-- `oldnum`. -/
def oldnum : Option ℕ := if s.oldindex < c.oldcount then (s.oldEntry c).map Prod.fst else some 0xffff

end Merge

/-- `while(newnum > oldnum)`, with so many old entities left; with none left `oldnum` is above every number. -/
def propagateBelow (c : Call F) (newnum : ℕ) : ℕ → Merge F → Option (Merge F)
  | 0, s => some s
  | left + 1, s =>
    (s.oldnum c).bind fun oldnum =>
      if oldnum < newnum then (s.propagate c).bind (propagateBelow c newnum left) else some s

/-- `while (oldindex < oldcount)`, with so many old entities left. -/
def propagateRest (c : Call F) : ℕ → Merge F → Option (Merge F)
  | 0, s => some s
  | left + 1, s => (s.propagate c).bind (propagateRest c left)

/-- One round of the loop, behind the number. -/
def parseEntity (c : Call F) (s : Merge F) (newnum : ℕ) (flags : BitVec 32) (m : List Byte) :
    Option (Merge F × List Byte) :=
  (propagateBelow c newnum (c.oldcount - s.oldindex) s).bind fun s =>
    (s.oldnum c).bind fun oldnum =>
      if newnum < oldnum then
        if flags.getLsbD uRemove then some (s, m)
        else if newnum < maxEntities then
          let r := parseEntityDelta A c.pext1 flags (c.baseline newnum) m
          ((s.expand c).put c newnum r.1).map (·, r.2)
        else none
      else if newnum = oldnum then
        if flags.getLsbD uRemove then some (s.skipOld, m)
        else
          ((s.expand c).oldEntry c).bind fun old =>
            let r := parseEntityDelta A c.pext1 flags old.2 m
            if relinks flags && !decide (newnum < maxEntities) then none
            else ((s.expand c).put c newnum r.1).map fun s => (s.skipOld, r.2)
      else some (s, m)

/-- The loop, for so many rounds. -/
def parseEntities (c : Call F) : ℕ → Merge F → List Byte → Option (Merge F)
  | 0, _, _ => none
  | rounds + 1, s, m =>
    let r := readentitynum m
    if r.1.1 = 0 then propagateRest c (c.oldcount - s.oldindex) s
    else (parseEntity A c s r.1.1 r.1.2 r.2).bind fun sm => parseEntities c rounds sm.1 sm.2

/-- The slot of a sequence number. -/
def slot (sequence : BitVec 32) : ℕ := (sequence &&& BitVec.ofNat 32 (entityFrames - 1)).toNat

namespace Sv

variable (tv : Sv F)

/-- The slot of `newframe`. -/
def newSlot : ℕ := if tv.usequakeworldprotocols then slot tv.incomingSequence else slot (tv.incomingSequence + 1)

/-- The slot of `oldframe`, where a frame that is no delta has none. -/
def oldSlot (deltaframe : Option Byte) : Option ℕ :=
  if tv.usequakeworldprotocols then deltaframe.map fun d => slot (d.setWidth 32) else some (slot tv.incomingSequence)

/-- What stays over the loop. -/
def call (deltaframe : Option Byte) : Call F where
  pext1 := tv.pext1
  baseline := tv.baseline
  newframe := tv.newSlot
  oldframe := tv.oldSlot deltaframe
  oldcount := match tv.oldSlot deltaframe with
    | none => 0
    | some j => (tv.frame j).numents

end Sv

/-- `ParsePacketEntities`: each round of the loop but the last reads a byte at least. -/
def parsePacketEntities (tv : Sv F) (m : List Byte) (deltaframe : Option Byte) : Option (Sv F) :=
  let c := tv.call deltaframe
  (parseEntities A c (m.length + 1) ⟨tv.frame, 0, 0⟩ m).map fun s =>
    { tv with
      incomingSequence := if tv.usequakeworldprotocols then tv.incomingSequence else tv.incomingSequence + 1
      frame := Function.update s.frame c.newframe { s.frame c.newframe with numents := s.newindex } }

/-! ## What a message says -/

section Records

variable {A}

theorem readMore_shorter (flags : BitVec 32) (m : List Byte) : (readMore flags m).2.length ≤ m.length := by
  have hif (b : Bool) (m : List Byte) : (if b then readByte m else (0, m)).2.length ≤ m.length := by
    split
    · exact EntityField.readByte_shorter m
    · exact le_rfl
  exact ((hif _ _).trans (hif _ _)).trans (EntityField.readByte_shorter m)

/-- A number that is not 0 takes a byte at least. -/
theorem readentitynum_shorter {m : List Byte} (hnum : (readentitynum m).1.1 ≠ 0) :
    (readentitynum m).2.length < m.length := by
  cases m with
  | nil => exact absurd rfl hnum
  | cons b m =>
    have hshort : (readShort (b :: m)).2.length ≤ m.length := EntityField.readByte_shorter m
    rw [length_cons, Nat.lt_succ_iff]
    unfold readentitynum
    dsimp only
    split
    · exact hshort
    · dsimp only
      split
      · exact (readMore_shorter _ _).trans hshort
      · exact hshort

/-- What is behind the fields of an entity. -/
def skipDelta (A : Formats F) (pext1 flags : BitVec 32) (m : List Byte) : List Byte :=
  (fields A pext1).foldl (EntityField.skip flags) m

theorem EntityField.parse_snd (flags : BitVec 32) (r : EntityState F × List Byte) (f : EntityField F) :
    (f.parse flags r).2 = f.skip flags r.2 := by
  unfold parse skip
  split <;> rfl

theorem EntityField.skip_shorter (flags : BitVec 32) (m : List Byte) (f : EntityField F) :
    (f.skip flags m).length ≤ m.length := by
  unfold skip
  split
  · exact f.shorter m
  · exact le_rfl

/-- What is read of an entity does not depend on what it was. -/
theorem parseEntityDelta_snd (pext1 flags : BitVec 32) (old : EntityState F) (m : List Byte) :
    (parseEntityDelta A pext1 flags old m).2 = skipDelta A pext1 flags m := by
  unfold parseEntityDelta skipDelta
  generalize fields A pext1 = fs
  induction fs generalizing old m with
  | nil => rfl
  | cons f fs ih =>
    rw [foldl_cons, foldl_cons, ← f.parse_snd flags (old, m)]
    exact ih _ _

theorem skipDelta_shorter (pext1 flags : BitVec 32) (m : List Byte) :
    (skipDelta A pext1 flags m).length ≤ m.length := by
  unfold skipDelta
  generalize fields A pext1 = fs
  induction fs generalizing m with
  | nil => exact le_rfl
  | cons f fs ih => exact (ih _).trans (f.skip_shorter flags m)

end Records

/-- One entity of a message: its number and flags, and the bytes behind them. -/
structure Record where
  num : ℕ
  flags : BitVec 32
  body : List Byte

namespace Record

/-- The entity is to be removed. -/
def remove (r : Record) : Bool := r.flags.getLsbD uRemove

/-- What is behind a record. -/
def rest (pext1 : BitVec 32) (r : Record) : List Byte := if r.remove then r.body else skipDelta A pext1 r.flags r.body

/-- What a record makes of what is at its number: nothing if it is to be removed, else what was there, or the baseline,
with the fields that are sent. -/
def update (pext1 : BitVec 32) (baseline : ℕ → EntityState F) (r : Record) :
    SortedUpdate.Update ℕ (EntityState F) :=
  (r.num, fun old =>
    if r.remove then none
    else some (parseEntityDelta A pext1 r.flags (old.getD (baseline r.num)) r.body).1)

end Record

/-- The record at the front of a message. -/
def record (m : List Byte) : Record := ⟨(readentitynum m).1.1, (readentitynum m).1.2, (readentitynum m).2⟩

theorem rest_shorter (pext1 : BitVec 32) {m : List Byte} (hnum : (record m).num ≠ 0) :
    ((record m).rest A pext1).length < m.length := by
  unfold Record.rest
  split
  · exact readentitynum_shorter hnum
  · exact (skipDelta_shorter _ _ _).trans_lt (readentitynum_shorter hnum)

/-- The records of a message, up to the number 0. -/
def records (pext1 : BitVec 32) (m : List Byte) : List Record :=
  if _h : (record m).num = 0 then [] else record m :: records pext1 ((record m).rest A pext1)
termination_by m.length
decreasing_by exact rest_shorter A pext1 _h

/-- The entities of a frame. -/
def Frame.entries (f : Frame F) : List (ℕ × EntityState F) := (List.range f.numents).map f.entry

/-- The numbers of a message ascend. -/
def Ascending (rs : List Record) : Prop := rs.Pairwise fun a b => a.num < b.num

namespace Sv

variable (tv : Sv F) (deltaframe : Option Byte) (m : List Byte)

/-- The entities that a delta is against. -/
def oldEntries : List (ℕ × EntityState F) :=
  match tv.oldSlot deltaframe with
  | none => []
  | some j => (tv.frame j).entries

/-- A call leaves the old frame with the entities of the message added, changed and removed in the new frame, and its
numbers ascending; other frames are as they were, and of every frame the entities are in its arrays. Where the numbers of
the old frame or of the message do not ascend, it has to be without an access outside an array. -/
def Updated : Prop :=
  ∃ tv', parsePacketEntities A tv m deltaframe = some tv' ∧ (∀ j, (tv'.frame j).numents ≤ (tv'.frame j).maxents) ∧
    (∀ j ≠ tv.newSlot, tv'.frame j = tv.frame j) ∧
    (Sorted (tv.oldEntries deltaframe) → Ascending (records A tv.pext1 m) →
      Sorted (tv'.frame tv.newSlot).entries ∧
      ∀ k, (tv'.frame tv.newSlot).entries.lookup k = SortedUpdate.applyAll ((tv.oldEntries deltaframe).lookup ·)
        ((records A tv.pext1 m).map (Record.update A tv.pext1 tv.baseline)) k)

end Sv

/-- A record adds an entity. -/
def Record.adds (old : List (ℕ × EntityState F)) (r : Record) : Bool := !r.remove && (old.lookup r.num).isNone

/-- A record removes an entity that is there. -/
def Record.drops (old : List (ℕ × EntityState F)) (r : Record) : Bool := r.remove && (old.lookup r.num).isSome

/-- There is room for an entity that is added in front of old ones: fewer were added before it than removed. -/
def Room (old : List (ℕ × EntityState F)) (rs : List Record) : Prop :=
  ∀ pre r post, rs = pre ++ r :: post → r.adds old → (∃ e ∈ old, r.num < e.1) →
    pre.countP (Record.adds old) < pre.countP (Record.drops old)

/-- The condition: no entity that is not removed has a number outside the table of entities, and a delta against the slot
of the new frame has room for what it adds. -/
def Sv.Met (tv : Sv F) (deltaframe : Option Byte) (m : List Byte) : Prop :=
  (∀ r ∈ records A tv.pext1 m, r.remove ∨ r.num < maxEntities) ∧
    (tv.oldSlot deltaframe = some tv.newSlot → Sorted (tv.oldEntries deltaframe) → Ascending (records A tv.pext1 m) →
      Room (tv.oldEntries deltaframe) (records A tv.pext1 m))

/-- The states of a proxy: the frames change by packet entities, and are emptied with the map. -/
inductive Reachable : Sv F → Prop
  | start {tv : Sv F} : (∀ j, (tv.frame j).numents = 0 ∧ (tv.frame j).maxents = 0) → Reachable tv
  | parse {tv tv' : Sv F} {m : List Byte} {deltaframe : Option Byte} : Reachable tv →
      parsePacketEntities A tv m deltaframe = some tv' → Reachable tv'
  | other {tv tv' : Sv F} : Reachable tv → tv'.frame = tv.frame → Reachable tv'

/-! ## Accesses -/

/-- A state of the loop in which what is to be read is in the arrays, and no number is outside the table of entities. -/
structure Safe (c : Call F) (start : ℕ → Frame F) (s : Merge F) : Prop where
  oldframe : c.oldframe = none → c.oldcount = 0
  old : ∀ j, c.oldframe = some j →
    c.oldcount ≤ (s.frame j).maxents ∧ ∀ i < c.oldcount, ((s.frame j).entry i).1 < maxEntities
  new : s.newindex ≤ (s.frame c.newframe).maxents ∧
    ∀ i < s.newindex, ((s.frame c.newframe).entry i).1 < maxEntities
  kept : ∀ j ≠ c.newframe, s.frame j = start j

/-- An entity was stored at `newindex`. -/
structure Stored (c : Call F) (s s' : Merge F) (e : ℕ × EntityState F) : Prop where
  newindex : s'.newindex = s.newindex + 1
  kept : ∀ j ≠ c.newframe, s'.frame j = s.frame j
  maxents : (s.frame c.newframe).maxents ≤ (s'.frame c.newframe).maxents
  fits : s.newindex < (s'.frame c.newframe).maxents
  entry : ∀ i, (s'.frame c.newframe).entry i = if i = s.newindex then e else (s.frame c.newframe).entry i

/-- What was stored in the new frame stays. -/
structure Extends (c : Call F) (s s' : Merge F) : Prop where
  newindex : s.newindex ≤ s'.newindex
  entry : ∀ i < s.newindex, (s'.frame c.newframe).entry i = (s.frame c.newframe).entry i

section Accesses

variable {A} {c : Call F} {start : ℕ → Frame F} {s s' : Merge F} {e : ℕ × EntityState F}

theorem le_expandFrame (newmax : ℕ) (f : Frame F) :
    newmax < (expandFrame newmax f).maxents ∧ f.maxents ≤ (expandFrame newmax f).maxents := by
  unfold expandFrame
  split
  · exact ⟨by assumption, le_rfl⟩
  · exact ⟨by dsimp only; omega, by dsimp only; omega⟩

theorem entry_expandFrame (newmax : ℕ) (f : Frame F) (i : ℕ) : (expandFrame newmax f).entry i = f.entry i := by
  unfold expandFrame
  split <;> rfl

theorem expand_frame (j : ℕ) : (s.frame j).maxents ≤ ((s.expand c).frame j).maxents ∧
    ∀ i, ((s.expand c).frame j).entry i = (s.frame j).entry i := by
  by_cases hj : j = c.newframe
  · subst hj
    simp only [Merge.expand, update_self]
    exact ⟨(le_expandFrame _ _).2, entry_expandFrame _ _⟩
  · have hsame : (s.expand c).frame j = s.frame j := update_of_ne hj _ _
    rw [hsame]
    exact ⟨le_rfl, fun _ => rfl⟩

theorem put_spec (c : Call F) (s : Merge F) (num : ℕ) (e : EntityState F) :
    ∃ s', (s.expand c).put c num e = some s' ∧ Stored c s s' (num, e) ∧ s'.oldindex = s.oldindex := by
  have hnew : (s.expand c).frame c.newframe = expandFrame s.newindex (s.frame c.newframe) := update_self ..
  have hfits : s.newindex < ((s.expand c).frame c.newframe).maxents := by
    rw [hnew]
    exact (le_expandFrame _ _).1
  refine ⟨_, if_pos hfits, ⟨rfl, fun j hj => ?_, ?_, ?_, fun i => ?_⟩, rfl⟩
  · simp only [Merge.expand, update_of_ne hj]
  · simp only [update_self]
    exact (expand_frame _).1
  · simp only [update_self]
    exact hfits
  · simp only [update_self, Frame.entry]
    by_cases hi : i = s.newindex
    · rw [if_pos hi, hi, show (s.expand c).newindex = s.newindex from rfl, update_self, update_self]
    · rw [if_neg hi, show (s.expand c).newindex = s.newindex from rfl, update_of_ne hi, update_of_ne hi]
      exact (expand_frame _).2 i

namespace Stored

theorem skipOld (hs : Stored c s s' e) : Stored c s s'.skipOld e := ⟨hs.newindex, hs.kept, hs.maxents, hs.fits, hs.entry⟩

theorem toExtends (hs : Stored c s s' e) : Extends c s s' :=
  ⟨hs.newindex ▸ Nat.le_succ _, fun i hi => (hs.entry i).trans (if_neg hi.ne)⟩

theorem safe (hs : Stored c s s' e) (hsafe : Safe c start s) (he : e.1 < maxEntities) : Safe c start s' := by
  have hentry (i : ℕ) (hi : i ≠ s.newindex → ((s.frame c.newframe).entry i).1 < maxEntities) :
      ((s'.frame c.newframe).entry i).1 < maxEntities := by
    rw [hs.entry]
    split
    · exact he
    · exact hi (by assumption)
  refine ⟨hsafe.oldframe, fun j hj => ?_, ⟨?_, fun i hi => hentry i fun hne => ?_⟩, fun j hj => ?_⟩
  · by_cases hjn : j = c.newframe
    · subst hjn
      exact ⟨(hsafe.old _ hj).1.trans hs.maxents, fun i hi => hentry i fun _ => (hsafe.old _ hj).2 i hi⟩
    · rw [hs.kept j hjn]
      exact hsafe.old j hj
  · rw [hs.newindex]
    exact hs.fits
  · rw [hs.newindex] at hi
    exact hsafe.new.2 i (by omega)
  · exact (hs.kept j hj).trans (hsafe.kept j hj)

end Stored

namespace Extends

theorem refl (c : Call F) (s : Merge F) : Extends c s s := ⟨le_rfl, fun _ _ => rfl⟩

theorem trans {s₂ : Merge F} (h₁ : Extends c s s') (h₂ : Extends c s' s₂) : Extends c s s₂ :=
  ⟨h₁.newindex.trans h₂.newindex, fun i hi => (h₂.entry i (hi.trans_le h₁.newindex)).trans (h₁.entry i hi)⟩

end Extends

namespace Safe

theorem skipOld (hs : Safe c start s) : Safe c start s.skipOld := ⟨hs.oldframe, hs.old, hs.new, hs.kept⟩

/-- An old entity that is left can be read. -/
theorem oldEntry (hs : Safe c start s) (hleft : s.oldindex < c.oldcount) : ∃ j, c.oldframe = some j ∧
    s.oldEntry c = some ((s.frame j).entry s.oldindex) ∧
    (s.expand c).oldEntry c = some ((s.frame j).entry s.oldindex) ∧
    ((s.frame j).entry s.oldindex).1 < maxEntities := by
  cases hold : c.oldframe with
  | none =>
    have := hs.oldframe hold
    omega
  | some j =>
    obtain ⟨hmax, hnum⟩ := hs.old j hold
    have hlt : s.oldindex < (s.frame j).maxents := hleft.trans_le hmax
    have hlt' : s.oldindex < ((s.expand c).frame j).maxents := hlt.trans_le (expand_frame j).1
    refine ⟨j, rfl, ?_, ?_, hnum _ hleft⟩
    · rw [Merge.oldEntry, hold, bind_some, if_pos hlt]
    · rw [Merge.oldEntry, hold, bind_some, show (s.expand c).oldindex = s.oldindex from rfl, if_pos hlt',
        (expand_frame j).2]

/-- An old entity that is left is copied. -/
theorem propagate (hs : Safe c start s) (hleft : s.oldindex < c.oldcount) : ∃ j s', c.oldframe = some j ∧
    s.propagate c = some s' ∧ Stored c s s' ((s.frame j).entry s.oldindex) ∧ s'.oldindex = s.oldindex + 1 ∧
    Safe c start s' := by
  obtain ⟨j, hj, -, hentry, hnum⟩ := hs.oldEntry hleft
  obtain ⟨s', hput, hstored, hold⟩ := put_spec c s ((s.frame j).entry s.oldindex).1 ((s.frame j).entry s.oldindex).2
  refine ⟨j, s'.skipOld, hj, ?_, hstored.skipOld, congrArg (· + 1) hold, (hstored.safe hs hnum).skipOld⟩
  rw [Merge.propagate, hentry, bind_some, hput, map_some]

theorem oldnum_of_lt (hs : Safe c start s) (hleft : s.oldindex < c.oldcount) : ∃ j, c.oldframe = some j ∧
    s.oldnum c = some ((s.frame j).entry s.oldindex).1 ∧ ((s.frame j).entry s.oldindex).1 < maxEntities := by
  obtain ⟨j, hj, hentry, -, hnum⟩ := hs.oldEntry hleft
  exact ⟨j, hj, by rw [Merge.oldnum, if_pos hleft, hentry, map_some], hnum⟩

end Safe

theorem oldnum_of_ge (hleft : ¬s.oldindex < c.oldcount) : s.oldnum c = some 0xffff := if_neg hleft

/-- The old entities below a number are copied, and the next one is not below it. -/
theorem propagateBelow_safe {num : ℕ} (hnum : num ≤ 0xffff) {left : ℕ} (hs : Safe c start s)
    (hleft : left = c.oldcount - s.oldindex) : ∃ s' o, propagateBelow c num left s = some s' ∧ Safe c start s' ∧
      Extends c s s' ∧ s'.oldnum c = some o ∧ num ≤ o := by
  induction left generalizing s with
  | zero => exact ⟨s, 0xffff, rfl, hs, .refl c s, oldnum_of_ge (by omega), hnum⟩
  | succ left ih =>
    have hlt : s.oldindex < c.oldcount := by omega
    obtain ⟨j, -, hold, -⟩ := hs.oldnum_of_lt hlt
    rw [propagateBelow, hold, bind_some]
    split
    · obtain ⟨j, s₁, -, hrun, hstored, hindex, hs₁⟩ := hs.propagate hlt
      obtain ⟨s', o, hrun', hs', hext, ho⟩ := ih hs₁ (by omega)
      exact ⟨s', o, by rw [hrun, bind_some, hrun'], hs', hstored.toExtends.trans hext, ho⟩
    · exact ⟨s, _, rfl, hs, .refl c s, hold, by omega⟩

theorem propagateRest_safe {left : ℕ} (hs : Safe c start s) (hleft : left = c.oldcount - s.oldindex) :
    ∃ s', propagateRest c left s = some s' ∧ Safe c start s' ∧ Extends c s s' := by
  induction left generalizing s with
  | zero => exact ⟨s, rfl, hs, .refl c s⟩
  | succ left ih =>
    obtain ⟨j, s₁, -, hrun, hstored, hindex, hs₁⟩ := hs.propagate (by omega : s.oldindex < c.oldcount)
    obtain ⟨s', hrun', hs', hext⟩ := ih hs₁ (by omega)
    exact ⟨s', by rw [propagateRest, hrun, bind_some, hrun'], hs', hstored.toExtends.trans hext⟩

/-- What a round does when the entities below its number are copied. -/
inductive Round (A : Formats F) (c : Call F) (r : Record) (s : Merge F) : Merge F → Prop
  | absent {o : ℕ} : r.remove = true → s.oldnum c = some o → r.num < o → Round A c r s s
  | drop : r.remove = true → s.oldindex < c.oldcount → s.oldnum c = some r.num → Round A c r s s.skipOld
  | add {o : ℕ} {s' : Merge F} : ¬r.remove = true → s.oldnum c = some o → r.num < o →
      Stored c s s' (r.num, (parseEntityDelta A c.pext1 r.flags (c.baseline r.num) r.body).1) →
      s'.oldindex = s.oldindex → Round A c r s s'
  | change {j : ℕ} {s' : Merge F} : ¬r.remove = true → s.oldindex < c.oldcount → s.oldnum c = some r.num →
      c.oldframe = some j →
      Stored c s s' (r.num, (parseEntityDelta A c.pext1 r.flags ((s.frame j).ents s.oldindex) r.body).1) →
      s'.oldindex = s.oldindex + 1 → Round A c r s s'

theorem Round.safe {r : Record} (hround : Round A c r s s') (hs : Safe c start s)
    (hr : r.remove = true ∨ r.num < maxEntities) : Safe c start s' := by
  cases hround with
  | absent => exact hs
  | drop => exact hs.skipOld
  | add hremove _ _ hstored _ => exact hstored.safe hs (hr.resolve_left hremove)
  | change hremove _ _ _ hstored _ => exact hstored.safe hs (hr.resolve_left hremove)

theorem Round.toExtends {r : Record} (hround : Round A c r s s') : Extends c s s' := by
  cases hround with
  | absent => exact .refl c s
  | drop => exact ⟨le_rfl, fun _ _ => rfl⟩
  | add _ _ _ hstored _ => exact hstored.toExtends
  | change _ _ _ _ hstored _ => exact hstored.toExtends

/-- A record is merged. -/
theorem parseEntity_round {r : Record} (hnum : r.num < 2048) (hs : Safe c start s)
    (hr : r.remove = true ∨ r.num < maxEntities) : ∃ s₁ s', propagateBelow c r.num (c.oldcount - s.oldindex) s = some s₁ ∧
      parseEntity A c s r.num r.flags r.body = some (s', r.rest A c.pext1) ∧ Safe c start s₁ ∧ Extends c s s₁ ∧
      Round A c r s₁ s' := by
  obtain ⟨s₁, o, hrun, hs₁, hext, ho, hle⟩ := propagateBelow_safe (by omega : r.num ≤ 0xffff) hs rfl
  have hleft (heq : r.num = o) : s₁.oldindex < c.oldcount := by
    by_contra hge
    rw [oldnum_of_ge hge] at ho
    cases ho
    omega
  suffices ∃ s', parseEntity A c s r.num r.flags r.body = some (s', r.rest A c.pext1) ∧ Round A c r s₁ s' by
    obtain ⟨s', hparse, hround⟩ := this
    exact ⟨s₁, s', hrun, hparse, hs₁, hext, hround⟩
  unfold parseEntity Record.rest
  rw [hrun, bind_some, ho, bind_some]
  by_cases hremove : r.remove = true
  · rw [if_pos (show r.flags.getLsbD uRemove = true from hremove), if_pos hremove,
      if_pos (show r.flags.getLsbD uRemove = true from hremove)]
    by_cases hlt : r.num < o
    · exact ⟨s₁, if_pos hlt, .absent hremove ho hlt⟩
    · have heq : r.num = o := by omega
      exact ⟨s₁.skipOld, by rw [if_neg hlt, if_pos heq], .drop hremove (hleft heq) (heq ▸ ho)⟩
  · have hsmall : r.num < maxEntities := hr.resolve_left hremove
    rw [if_neg (show ¬r.flags.getLsbD uRemove = true from hremove), if_neg hremove,
      if_neg (show ¬r.flags.getLsbD uRemove = true from hremove)]
    by_cases hlt : r.num < o
    · obtain ⟨s', hput, hstored, hold⟩ :=
        put_spec c s₁ r.num (parseEntityDelta A c.pext1 r.flags (c.baseline r.num) r.body).1
      refine ⟨s', ?_, .add hremove ho hlt hstored hold⟩
      rw [if_pos hlt, if_pos hsmall]
      dsimp only
      rw [hput, map_some, parseEntityDelta_snd]
    · have heq : r.num = o := by omega
      obtain ⟨j, hj, -, hentry, -⟩ := hs₁.oldEntry (hleft heq)
      obtain ⟨s', hput, hstored, hold⟩ := put_spec c s₁ r.num
        (parseEntityDelta A c.pext1 r.flags ((s₁.frame j).entry s₁.oldindex).2 r.body).1
      have hlinks : ¬(relinks r.flags && !decide (r.num < maxEntities)) = true := by
        simp [hsmall]
      refine ⟨s'.skipOld, ?_, .change hremove (hleft heq) (heq ▸ ho) hj hstored.skipOld (congrArg (· + 1) hold)⟩
      rw [if_neg hlt, if_pos heq, hentry, bind_some]
      dsimp only
      rw [if_neg hlinks, hput, map_some, parseEntityDelta_snd]

/-- A number outside the table of entities is an access outside it. -/
theorem parseEntity_none {r : Record} (hnum : r.num < 2048) (hs : Safe c start s) (hremove : ¬r.remove = true)
    (hlarge : ¬r.num < maxEntities) : parseEntity A c s r.num r.flags r.body = none := by
  obtain ⟨s₁, o, hrun, hs₁, -, ho, hle⟩ := propagateBelow_safe (by omega : r.num ≤ 0xffff) hs rfl
  unfold parseEntity
  rw [hrun, bind_some, ho, bind_some]
  by_cases hleft : s₁.oldindex < c.oldcount
  · obtain ⟨j, -, hold, hsmall⟩ := hs₁.oldnum_of_lt hleft
    rw [hold] at ho
    cases ho
    omega
  · rw [oldnum_of_ge hleft] at ho
    cases ho
    rw [if_pos (by omega), if_neg (show ¬r.flags.getLsbD uRemove = true from hremove), if_neg hlarge]

end Accesses

/-! ## The loop over the records -/

section Loop

variable {A} {c : Call F} {start : ℕ → Frame F} {s s' : Merge F}

/-- A round of the loop. -/
def runRecord (A : Formats F) (c : Call F) (s : Merge F) (r : Record) : Option (Merge F) :=
  (parseEntity A c s r.num r.flags r.body).map Prod.fst

theorem record_num_lt (m : List Byte) : (record m).num < 2048 := by
  have hlow (w : BitVec 16) : (w &&& 511#16).toNat < 512 := by
    rw [BitVec.toNat_and]
    exact Nat.and_lt_two_pow _ (by decide : (511#16).toNat < 2 ^ 9)
  have hadd (b : Bool) (n k : ℕ) : (if b then n + k else n) ≤ n + k := by split <;> omega
  unfold record readentitynum
  dsimp only
  split
  · exact Nat.succ_pos _
  · refine (hadd _ _ 1024).trans_lt (Nat.add_lt_add_right (m := 1024) ?_ 1024)
    exact (hadd _ _ 512).trans_lt (Nat.add_lt_add_right (hlow _) 512)

variable {pext1 : BitVec 32} {m : List Byte}

theorem records_of_zero (hnum : (record m).num = 0) :
    records A pext1 m = [] := by
  rw [records, dif_pos hnum]

theorem records_of_ne (hnum : ¬(record m).num = 0) :
    records A pext1 m = record m :: records A pext1 ((record m).rest A pext1) := by
  rw [records, dif_neg hnum]

theorem num_lt_of_mem {r : Record} (hr : r ∈ records A pext1 m) :
    r.num < 2048 := by
  induction m using (measure List.length).wf.induction with
  | _ m ih =>
    by_cases hnum : (record m).num = 0
    · rw [records_of_zero hnum] at hr
      cases hr
    · rw [records_of_ne hnum] at hr
      rcases List.mem_cons.mp hr with rfl | hr
      · exact record_num_lt m
      · exact ih _ (rest_shorter A pext1 hnum) hr

/-- The loop takes the records of the message one after the other. -/
theorem parseEntities_eq {rounds : ℕ} (hrounds : m.length < rounds) (hs : Safe c start s) :
    parseEntities A c rounds s m =
      ((records A c.pext1 m).foldlM (runRecord A c) s).bind fun s => propagateRest c (c.oldcount - s.oldindex) s := by
  induction rounds generalizing s m with
  | zero => exact absurd hrounds (Nat.not_lt_zero _)
  | succ rounds ih =>
    have hround : parseEntities A c (rounds + 1) s m =
        if (record m).num = 0 then propagateRest c (c.oldcount - s.oldindex) s
        else (parseEntity A c s (record m).num (record m).flags (record m).body).bind fun sm =>
          parseEntities A c rounds sm.1 sm.2 := rfl
    rw [hround]
    by_cases hnum : (record m).num = 0
    · rw [if_pos hnum, records_of_zero hnum]
      rfl
    · rw [if_neg hnum, records_of_ne hnum, foldlM_cons]
      by_cases hr : (record m).remove = true ∨ (record m).num < maxEntities
      · obtain ⟨s₁, s', -, hrun, hs₁, -, hstep⟩ := parseEntity_round (A := A) (record_num_lt m) hs hr
        have hs' := hstep.safe hs₁ hr
        have hshort := rest_shorter A c.pext1 hnum
        rw [runRecord, hrun, bind_some]
        exact ih (hshort.trans_le (Nat.lt_succ_iff.mp hrounds)) hs'
      · have hnone := parseEntity_none (A := A) (record_num_lt m) hs (fun h => hr (.inl h)) fun h => hr (.inr h)
        rw [runRecord, hnone]
        rfl

theorem runRecord_safe {r : Record} (hnum : r.num < 2048) (hs : Safe c start s)
    (hr : r.remove ∨ r.num < maxEntities) : ∃ s', runRecord A c s r = some s' ∧ Safe c start s' ∧ Extends c s s' := by
  obtain ⟨s₁, s', -, hrun, hs₁, hext, hround⟩ := parseEntity_round (A := A) hnum hs hr
  exact ⟨s', by rw [runRecord, hrun, map_some], hround.safe hs₁ hr, hext.trans hround.toExtends⟩

/-- The records are merged if no number but of a removal is outside the table of entities. -/
theorem runRecords_safe {rs : List Record} (hnum : ∀ r ∈ rs, r.num < 2048) (hs : Safe c start s)
    (hrs : ∀ r ∈ rs, r.remove ∨ r.num < maxEntities) :
    ∃ s', rs.foldlM (runRecord A c) s = some s' ∧ Safe c start s' ∧ Extends c s s' := by
  induction rs generalizing s with
  | nil => exact ⟨s, rfl, hs, .refl c s⟩
  | cons r rs ih =>
    obtain ⟨s₁, hrun, hs₁, hext⟩ := runRecord_safe (A := A) (hnum r (.head _)) hs (hrs r (.head _))
    obtain ⟨s', hrun', hs', hext'⟩ := ih (fun r hr => hnum r (.tail _ hr)) hs₁ fun r hr => hrs r (.tail _ hr)
    refine ⟨s', ?_, hs', hext.trans hext'⟩
    rw [foldlM_cons, hrun]
    exact hrun'

/-- Else they are not. -/
theorem runRecords_none {rs : List Record} (hnum : ∀ r ∈ rs, r.num < 2048) (hs : Safe c start s)
    (hrs : ¬∀ r ∈ rs, r.remove ∨ r.num < maxEntities) : rs.foldlM (runRecord A c) s = none := by
  induction rs generalizing s with
  | nil => exact absurd nofun hrs
  | cons r rs ih =>
    rw [foldlM_cons]
    by_cases hr : r.remove = true ∨ r.num < maxEntities
    · obtain ⟨s₁, hrun, hs₁, -⟩ := runRecord_safe (A := A) (hnum r (.head _)) hs hr
      rw [hrun]
      refine ih (fun r hr => hnum r (.tail _ hr)) hs₁ fun hall => hrs fun r' hr' => ?_
      rcases List.mem_cons.mp hr' with rfl | hr'
      · exact hr
      · exact hall r' hr'
    · have hnone := parseEntity_none (A := A) (hnum r (.head _)) hs (fun h => hr (.inl h)) fun h => hr (.inr h)
      rw [runRecord, hnone]
      rfl

end Loop

/-! ## Merging -/

/-- The entities of the new frame so far. -/
def front (c : Call F) (s : Merge F) : List (ℕ × EntityState F) :=
  (List.range s.newindex).map (s.frame c.newframe).entry

/-- The old entities from an index on. -/
def backFrom (c : Call F) (s : Merge F) (k : ℕ) : List (ℕ × EntityState F) :=
  match c.oldframe with
  | none => []
  | some j => (List.range' k (c.oldcount - k)).map (s.frame j).entry

/-- The old entities that are left. -/
def back (c : Call F) (s : Merge F) : List (ℕ × EntityState F) := backFrom c s s.oldindex

/-- What is stored next does not go over an old entity that is left. -/
def Clear (c : Call F) (s : Merge F) : Prop :=
  c.oldframe = some c.newframe → s.newindex ≤ s.oldindex ∨ c.oldcount ≤ s.oldindex

section Merging

variable {A} {c : Call F} {start : ℕ → Frame F} {s s' : Merge F} {e : ℕ × EntityState F}

theorem Stored.front (hs : Stored c s s' e) : front c s' = front c s ++ [e] := by
  rw [PacketEntities.front, PacketEntities.front, hs.newindex, range_succ, map_append, map_singleton,
    hs.entry, if_pos rfl]
  congr 1
  apply map_congr_left
  intro i hi
  rw [hs.entry, if_neg (List.mem_range.mp hi).ne]

theorem Stored.backFrom (hs : Stored c s s' e) {k : ℕ}
    (hk : c.oldframe = some c.newframe → s.newindex < k ∨ c.oldcount ≤ k) :
    backFrom c s' k = backFrom c s k := by
  unfold PacketEntities.backFrom
  cases hold : c.oldframe with
  | none => rfl
  | some j =>
    apply map_congr_left
    intro i hi
    by_cases hj : j = c.newframe
    · subst hj
      have hrange := mem_range'_1.mp hi
      have := hk hold
      rw [hs.entry, if_neg (by omega)]
    · rw [hs.kept j hj]

theorem back_cons (hs : Safe c start s) (hleft : s.oldindex < c.oldcount) : ∃ j, c.oldframe = some j ∧
    s.oldnum c = some ((s.frame j).entry s.oldindex).1 ∧
    back c s = (s.frame j).entry s.oldindex :: backFrom c s (s.oldindex + 1) := by
  obtain ⟨j, hj, hold, -⟩ := hs.oldnum_of_lt hleft
  refine ⟨j, hj, hold, ?_⟩
  have hcount : c.oldcount - s.oldindex = c.oldcount - (s.oldindex + 1) + 1 := by omega
  unfold back backFrom
  rw [hj]
  dsimp only
  rw [hcount, List.range'_succ, map_cons]

theorem back_nil (hleft : ¬s.oldindex < c.oldcount) : back c s = [] := by
  unfold back backFrom
  cases c.oldframe with
  | none => rfl
  | some j =>
    dsimp only
    rw [Nat.sub_eq_zero_of_le (not_lt.mp hleft)]
    rfl

/-- An old entity that is left is put behind those of the new frame. -/
theorem propagate_spec (hs : Safe c start s) (hclear : Clear c s) (hleft : s.oldindex < c.oldcount) :
    ∃ s' e rest, s.propagate c = some s' ∧ Safe c start s' ∧ Clear c s' ∧ s.oldnum c = some e.1 ∧
      back c s = e :: rest ∧ back c s' = rest ∧ front c s' = front c s ++ [e] ∧
      s'.newindex = s.newindex + 1 ∧ s'.oldindex = s.oldindex + 1 := by
  obtain ⟨j, s', hj, hrun, hstored, hindex, hs'⟩ := hs.propagate hleft
  obtain ⟨j', hj', hold, hback⟩ := back_cons hs hleft
  rw [hj] at hj'
  cases hj'
  refine ⟨s', _, _, hrun, hs', fun hsame => ?_, hold, hback, ?_, hstored.front, hstored.newindex, hindex⟩
  · have := hclear hsame
    rw [hstored.newindex, hindex]
    omega
  · rw [back, hindex]
    refine hstored.backFrom fun hsame => ?_
    have := hclear hsame
    omega

theorem propagateBelow_spec (num : ℕ) {left : ℕ} (hs : Safe c start s) (hclear : Clear c s)
    (hleft : left = c.oldcount - s.oldindex) : ∃ s', propagateBelow c num left s = some s' ∧ Clear c s' ∧
      front c s' = front c s ++ (back c s).takeWhile (·.1 < num) ∧ back c s' = (back c s).dropWhile (·.1 < num) ∧
      s'.newindex + s.oldindex = s.newindex + s'.oldindex := by
  induction left generalizing s with
  | zero =>
    rw [back_nil (by omega)]
    exact ⟨s, rfl, hclear, (append_nil _).symm, back_nil (by omega), rfl⟩
  | succ left ih =>
    have hlt : s.oldindex < c.oldcount := by omega
    obtain ⟨s₁, e, rest, hrun, hs₁, hclear₁, hold, hback, hback₁, hfront, hnew, hindex⟩ := propagate_spec hs hclear hlt
    rw [propagateBelow, hold, bind_some, hback]
    by_cases he : e.1 < num
    · obtain ⟨s', hrun', hclear', hfront', hback', hgap⟩ := ih hs₁ hclear₁ (by omega)
      simp only [takeWhile_cons, dropWhile_cons, decide_eq_true he, if_true, if_pos he, hrun, bind_some]
      refine ⟨s', hrun', hclear', ?_, hback₁ ▸ hback', by omega⟩
      rw [hfront', hfront, hback₁, append_assoc, singleton_append]
    · simp only [takeWhile_cons, dropWhile_cons, decide_eq_false he, Bool.false_eq_true, if_false, if_neg he]
      exact ⟨s, rfl, hclear, (append_nil _).symm, hback, rfl⟩

theorem propagateRest_spec {left : ℕ} (hs : Safe c start s) (hclear : Clear c s)
    (hleft : left = c.oldcount - s.oldindex) :
    ∃ s', propagateRest c left s = some s' ∧ front c s' = front c s ++ back c s := by
  induction left generalizing s with
  | zero =>
    rw [back_nil (by omega)]
    exact ⟨s, rfl, (append_nil _).symm⟩
  | succ left ih =>
    obtain ⟨s₁, e, rest, hrun, hs₁, hclear₁, -, hback, hback₁, hfront, -, hindex⟩ :=
      propagate_spec hs hclear (by omega)
    obtain ⟨s', hrun', hfront'⟩ := ih hs₁ hclear₁ (by omega)
    refine ⟨s', by rw [propagateRest, hrun, bind_some, hrun'], ?_⟩
    rw [hfront', hfront, hback₁, hback, append_assoc, singleton_append]

/-- What a round makes of the entities that are left, where its number is not above the first of them. -/
theorem Round.merges {r : Record} (hround : Round A c r s s') (hs : Safe c start s) (hclear : Clear c s)
    (hroom : c.oldframe = some c.newframe → ¬r.remove = true → (SortedUpdate.hit r.num (back c s)).1 = none →
      back c s ≠ [] → s.newindex < s.oldindex) :
    Clear c s' ∧ back c s' = (SortedUpdate.hit r.num (back c s)).2 ∧
      front c s' = front c s ++ SortedUpdate.entry r.num
        ((r.update A c.pext1 c.baseline).2 (SortedUpdate.hit r.num (back c s)).1) ∧
      s'.newindex + s.oldindex + (if r.remove = true ∧ (SortedUpdate.hit r.num (back c s)).1.isSome then 1 else 0) =
        s.newindex + s'.oldindex +
          (if r.remove = false ∧ (SortedUpdate.hit r.num (back c s)).1 = none then 1 else 0) := by
  -- the entity of the number is the first that is left, or there is none
  have habsent {o : ℕ} (ho : s.oldnum c = some o) (hlt : r.num < o) :
      SortedUpdate.hit r.num (back c s) = (none, back c s) := by
    by_cases hleft : s.oldindex < c.oldcount
    · obtain ⟨j, -, hold, hback⟩ := back_cons hs hleft
      rw [hold] at ho
      rw [hback]
      exact if_neg fun heq => absurd (heq.symm.trans (some.inj ho)) hlt.ne
    · rw [back_nil hleft]
      rfl
  have hpresent (hleft : s.oldindex < c.oldcount) (ho : s.oldnum c = some r.num) {j : ℕ} (hj : c.oldframe = some j) :
      SortedUpdate.hit r.num (back c s) = (some ((s.frame j).ents s.oldindex), backFrom c s (s.oldindex + 1)) := by
    obtain ⟨j', hj', hold, hback⟩ := back_cons hs hleft
    rw [hj] at hj'
    cases hj'
    rw [hold] at ho
    rw [hback]
    exact if_pos (some.inj ho)
  cases hround with
  | absent hremove ho hlt =>
    rw [habsent ho hlt]
    refine ⟨hclear, rfl, ?_, ?_⟩
    · simp [Record.update, hremove, SortedUpdate.entry]
    · simp [hremove]
  | drop hremove hleft ho =>
    obtain ⟨j, hj, -⟩ := hs.oldnum_of_lt hleft
    rw [hpresent hleft ho hj]
    refine ⟨fun hsame => ?_, rfl, ?_, ?_⟩
    · have := hclear hsame
      simp only [Merge.skipOld]
      omega
    · simp only [Record.update, hremove, if_true, SortedUpdate.entry, map_none, toList_none, append_nil]
      rfl
    · simp only [hremove, isSome_some, and_self, if_true, Bool.true_eq_false, false_and, if_false, Merge.skipOld]
      omega
  | add hremove ho hlt hstored hindex =>
    rw [habsent ho hlt]
    rw [habsent ho hlt] at hroom
    have hfree : c.oldframe = some c.newframe → s.newindex < s.oldindex ∨ c.oldcount ≤ s.oldindex := fun hsame => by
      by_cases hleft : s.oldindex < c.oldcount
      · obtain ⟨j, -, -, hback⟩ := back_cons hs hleft
        exact .inl (hroom hsame hremove rfl (hback ▸ cons_ne_nil _ _))
      · exact .inr (not_lt.mp hleft)
    refine ⟨fun hsame => ?_, ?_, ?_, ?_⟩
    · have := hfree hsame
      rw [hstored.newindex, hindex]
      omega
    · rw [back, hindex]
      exact hstored.backFrom hfree
    · rw [hstored.front]
      simp [Record.update, eq_false_of_ne_true hremove, SortedUpdate.entry]
    · simp only [eq_false_of_ne_true hremove, Bool.false_eq_true, false_and, if_false, and_self, if_true]
      have := hstored.newindex
      omega
  | change hremove hleft ho hj hstored hindex =>
    rw [hpresent hleft ho hj]
    refine ⟨fun hsame => ?_, ?_, ?_, ?_⟩
    · have := hclear hsame
      rw [hstored.newindex, hindex]
      omega
    · rw [back, hindex]
      refine hstored.backFrom fun hsame => ?_
      have := hclear hsame
      omega
    · rw [hstored.front]
      simp [Record.update, eq_false_of_ne_true hremove, SortedUpdate.entry]
    · simp only [eq_false_of_ne_true hremove, Bool.false_eq_true, false_and, if_false, reduceCtorEq, and_false]
      have := hstored.newindex
      omega

end Merging

/-! ## Runs over the records -/

/-- As `Room`, for the records that are left behind some others. -/
def RoomFrom (old : List (ℕ × EntityState F)) (pre post : List Record) : Prop :=
  ∀ a r b, post = a ++ r :: b → r.adds old → (∃ e ∈ old, r.num < e.1) →
    (pre ++ a).countP (Record.adds old) < (pre ++ a).countP (Record.drops old)

/-- The state behind some records: what is stored and what is left is what the merge of both makes of the records. -/
structure Inv (A : Formats F) (c : Call F) (start : ℕ → Frame F) (old : List (ℕ × EntityState F)) (pre : List Record)
    (s : Merge F) : Prop where
  safe : Safe c start s
  clear : Clear c s
  merge : ∀ us, SortedUpdate.merge old (pre.map (Record.update A c.pext1 c.baseline) ++ us) =
    front c s ++ SortedUpdate.merge (back c s) us
  sorted : Sorted (back c s)
  gap : s.newindex + pre.countP (Record.drops old) = s.oldindex + pre.countP (Record.adds old)
  lookup : ∀ k, (∀ r ∈ pre, r.num < k) → old.lookup k = (back c s).lookup k
  mem : ∀ e ∈ old, (∀ r ∈ pre, r.num < e.1) → e ∈ back c s
  subset : back c s ⊆ old

/-- An old entity that is left was overwritten by the entity stored last, of this number. -/
structure Stuck (c : Call F) (s : Merge F) (num : ℕ) : Prop where
  newindex : s.newindex = s.oldindex + 1
  left : s.oldindex < c.oldcount
  entry : ((s.frame c.newframe).entry s.oldindex).1 = num

/-- Two entities of the new frame have one number. -/
def Twice (c : Call F) (s : Merge F) : Prop :=
  ∃ i, i + 1 < s.newindex ∧
    ((s.frame c.newframe).entry i).1 = ((s.frame c.newframe).entry (i + 1)).1

section Runs

variable {A} {c : Call F} {start : ℕ → Frame F} {s s' : Merge F} {old : List (ℕ × EntityState F)}
  {pre post : List Record} {r : Record} {num : ℕ}

theorem roomFrom_cons : RoomFrom old pre (r :: post) ↔
    (r.adds old → (∃ e ∈ old, r.num < e.1) → pre.countP (Record.adds old) < pre.countP (Record.drops old)) ∧
      RoomFrom old (pre ++ [r]) post := by
  constructor
  · intro hroom
    refine ⟨fun hadds he => ?_, fun a r' b heq hadds he => ?_⟩
    · have := hroom [] r post rfl hadds he
      rwa [append_nil] at this
    · have := hroom (r :: a) r' b (congrArg (r :: ·) heq) hadds he
      rwa [append_cons] at this
  · rintro ⟨hfirst, hrest⟩ a r' b heq hadds he
    cases a with
    | nil =>
      cases heq
      rw [append_nil]
      exact hfirst hadds he
    | cons r₀ a =>
      cases heq
      rw [append_cons]
      exact hrest a r' b rfl hadds he

theorem Inv.step (hinv : Inv A c start old pre s) (hnum : r.num < 2048) (hr : r.remove = true ∨ r.num < maxEntities)
    (hlt : ∀ r' ∈ pre, r'.num < r.num) (hroom : c.oldframe = some c.newframe → r.adds old = true →
      (∃ e ∈ old, r.num < e.1) → pre.countP (Record.adds old) < pre.countP (Record.drops old)) :
    ∃ s', runRecord A c s r = some s' ∧ Inv A c start old (pre ++ [r]) s' := by
  obtain ⟨s₁, s', hbelow, hrun, hs₁, -, hround⟩ := parseEntity_round (A := A) hnum hinv.safe hr
  obtain ⟨s₂, hbelow₂, hclear₁, hfront₁, hback₁, hgap₁⟩ :=
    propagateBelow_spec r.num hinv.safe hinv.clear rfl
  rw [hbelow] at hbelow₂
  cases hbelow₂
  have hsplit := SortedUpdate.split_hit hinv.sorted r.num
  rw [← hback₁] at hsplit
  have hlookup : old.lookup r.num = (SortedUpdate.hit r.num (back c s₁)).1 :=
    (hinv.lookup r.num hlt).trans hsplit.lookup_self
  have hsub : (SortedUpdate.hit r.num (back c s₁)).2 ⊆ back c s := by
    refine List.Subset.trans (SortedUpdate.hit_subset _ _) ?_
    rw [hback₁]
    exact (dropWhile_sublist _).subset
  have hgap := hinv.gap
  obtain ⟨hclear', hback', hfront', hgap'⟩ := hround.merges hs₁ hclear₁ fun hsame hremove hnone hne => by
    obtain ⟨e, rest, heq⟩ := exists_cons_of_ne_nil hne
    have hmem : e ∈ (SortedUpdate.hit r.num (back c s₁)).2 := by
      rw [SortedUpdate.hit_of_none hnone, heq]
      exact .head _
    have hadds : r.adds old = true := by
      rw [Record.adds, hlookup, hnone, eq_false_of_ne_true hremove]
      rfl
    have := hroom hsame hadds ⟨e, hinv.subset (hsub hmem), hsplit.lt_back e hmem⟩
    omega
  refine ⟨s', by rw [runRecord, hrun, map_some], hround.safe hs₁ hr, hclear', fun us => ?_, ?_, ?_, fun k hk => ?_,
    fun e he hk => ?_, ?_⟩
  · rw [map_append, append_assoc, map_singleton, singleton_append, hinv.merge, SortedUpdate.merge,
      hfront', hback', hfront₁, hback₁, append_assoc, append_assoc, append_assoc]
    rfl
  · rw [hback']
    exact hsplit.sorted_back hinv.sorted
  · rw [countP_append, countP_append, countP_singleton, countP_singleton, Record.adds, Record.drops, hlookup]
    simp only [Bool.and_eq_true, Bool.not_eq_true', isNone_iff_eq_none]
    omega
  · have hpre := hinv.lookup k fun r' hr' => hk r' (mem_append_left _ hr')
    rw [hpre, hback']
    exact hsplit.lookup_of_gt (hk r (mem_append_right _ (.head _)))
  · have hmem := hinv.mem e he fun r' hr' => hk r' (mem_append_left _ hr')
    have hgt := hk r (mem_append_right _ (.head _))
    rw [hsplit.eq, mem_append, mem_append] at hmem
    rw [hback']
    rcases hmem with (hmem | hmem) | hmem
    · exact absurd (hsplit.front_lt e hmem) (not_lt.mpr hgt.le)
    · exact absurd (SortedUpdate.mem_entry hmem) hgt.ne'
    · exact hmem
  · rw [hback']
    exact List.Subset.trans hsub hinv.subset

theorem Twice.toExtends (ht : Twice c s) (hext : Extends c s s') : Twice c s' := by
  obtain ⟨i, hi, heq⟩ := ht
  refine ⟨i, hi.trans_le hext.newindex, ?_⟩
  rw [hext.entry i (by omega), hext.entry (i + 1) hi, heq]

theorem Twice.not_sorted (ht : Twice c s) : ¬Sorted (front c s) := by
  obtain ⟨i, hi, heq⟩ := ht
  intro hsorted
  rw [Sorted, front, pairwise_map] at hsorted
  have hpair := List.pairwise_iff_getElem.mp hsorted i (i + 1) (by rw [length_range]; omega)
    (by rw [length_range]; omega) (Nat.lt_succ_self i)
  rw [getElem_range, getElem_range] at hpair
  exact hpair.ne heq

namespace Stuck

/-- The entity is copied once more. -/
theorem propagate (hst : Stuck c s num) (hs : Safe c start s) (hsame : c.oldframe = some c.newframe) :
    ∃ s', s.propagate c = some s' ∧ Safe c start s' ∧ s'.oldindex = s.oldindex + 1 ∧ Twice c s' := by
  obtain ⟨j, s', hj, hrun, hstored, hindex, hs'⟩ := hs.propagate hst.left
  rw [hsame] at hj
  cases hj
  refine ⟨s', hrun, hs', hindex, s.oldindex, ?_, ?_⟩
  · have := hstored.newindex
    have := hst.newindex
    omega
  · rw [hstored.entry, hstored.entry, if_neg (by rw [hst.newindex]; omega), if_pos hst.newindex.symm]

theorem below (hst : Stuck c s num) (hs : Safe c start s) (hsame : c.oldframe = some c.newframe) {num' : ℕ}
    (hlt : num < num') (hnum : num' ≤ 0xffff) :
    ∃ s', propagateBelow c num' (c.oldcount - s.oldindex) s = some s' ∧ Twice c s' := by
  have hleft := hst.left
  obtain ⟨left, hl⟩ : ∃ left, c.oldcount - s.oldindex = left + 1 := ⟨c.oldcount - s.oldindex - 1, by omega⟩
  obtain ⟨s₁, hrun, hs₁, hindex, htwice⟩ := hst.propagate hs hsame
  obtain ⟨s', o, hrun', -, hext, -⟩ := propagateBelow_safe hnum hs₁ (by omega : left = c.oldcount - s₁.oldindex)
  obtain ⟨j, hj, hold, -⟩ := hs.oldnum_of_lt hleft
  rw [hsame] at hj
  cases hj
  refine ⟨s', ?_, htwice.toExtends hext⟩
  rw [hl, propagateBelow, hold, bind_some, hst.entry, if_pos hlt, hrun, bind_some, hrun']

theorem rest (hst : Stuck c s num) (hs : Safe c start s) (hsame : c.oldframe = some c.newframe) :
    ∃ s', propagateRest c (c.oldcount - s.oldindex) s = some s' ∧ Twice c s' := by
  have hleft := hst.left
  obtain ⟨left, hl⟩ : ∃ left, c.oldcount - s.oldindex = left + 1 := ⟨c.oldcount - s.oldindex - 1, by omega⟩
  obtain ⟨s₁, hrun, hs₁, hindex, htwice⟩ := hst.propagate hs hsame
  obtain ⟨s', hrun', -, hext⟩ := propagateRest_safe hs₁ (by omega : left = c.oldcount - s₁.oldindex)
  exact ⟨s', by rw [hl, propagateRest, hrun, bind_some, hrun'], htwice.toExtends hext⟩

/-- The number is in the new frame twice at the end. -/
theorem run (hst : Stuck c s num) (hs : Safe c start s) (hsame : c.oldframe = some c.newframe)
    (hnum : ∀ r ∈ post, num < r.num ∧ r.num < 2048) (hr : ∀ r ∈ post, r.remove = true ∨ r.num < maxEntities) :
    ∃ s' s₂, post.foldlM (runRecord A c) s = some s' ∧ propagateRest c (c.oldcount - s'.oldindex) s' = some s₂ ∧
      Twice c s₂ := by
  cases post with
  | nil =>
    obtain ⟨s₂, hrun, htwice⟩ := hst.rest hs hsame
    exact ⟨s, s₂, rfl, hrun, htwice⟩
  | cons r post =>
    obtain ⟨hlt, hlt'⟩ := hnum r (.head _)
    obtain ⟨s₀, hbelow, htwice⟩ := hst.below hs hsame hlt (by omega : r.num ≤ 0xffff)
    obtain ⟨s₁, s', hbelow', hrun, hs₁, hext, hround⟩ := parseEntity_round (A := A) hlt' hs (hr r (.head _))
    rw [hbelow] at hbelow'
    cases hbelow'
    have hs' := hround.safe hs₁ (hr r (.head _))
    obtain ⟨s₂, hrun₂, hs₂, hext₂⟩ := runRecords_safe (A := A) (fun r hr => (hnum r (.tail _ hr)).2) hs'
      fun r hr' => hr r (.tail _ hr')
    obtain ⟨s₃, hrest, -, hext₃⟩ := propagateRest_safe hs₂ rfl
    refine ⟨s₂, s₃, ?_, hrest, ((htwice.toExtends hround.toExtends).toExtends hext₂).toExtends hext₃⟩
    rw [foldlM_cons, runRecord, hrun]
    exact hrun₂

end Stuck

/-- An entity is added where there is no room for it. -/
theorem Inv.stuck (hinv : Inv A c start old pre s) (hnum : r.num < 2048) (hr : r.remove = true ∨ r.num < maxEntities)
    (hlt : ∀ r' ∈ pre, r'.num < r.num) (hsame : c.oldframe = some c.newframe) (hadds : r.adds old = true)
    (he : ∃ e ∈ old, r.num < e.1) (hroom : ¬pre.countP (Record.adds old) < pre.countP (Record.drops old)) :
    ∃ s', runRecord A c s r = some s' ∧ Safe c start s' ∧ Stuck c s' r.num := by
  obtain ⟨s₁, s', hbelow, hrun, hs₁, -, hround⟩ := parseEntity_round (A := A) hnum hinv.safe hr
  obtain ⟨s₂, hbelow₂, hclear₁, -, hback₁, hgap₁⟩ :=
    propagateBelow_spec r.num hinv.safe hinv.clear rfl
  rw [hbelow] at hbelow₂
  cases hbelow₂
  have hsplit := SortedUpdate.split_hit hinv.sorted r.num
  rw [← hback₁] at hsplit
  rw [Record.adds, Bool.and_eq_true, Bool.not_eq_true', isNone_iff_eq_none] at hadds
  obtain ⟨hremove, hnone⟩ := hadds
  rw [hinv.lookup r.num hlt, hsplit.lookup_self] at hnone
  -- the entity with a greater number is still left
  have hleft : s₁.oldindex < c.oldcount := by
    obtain ⟨e, he, hgt⟩ := he
    have hmem := hinv.mem e he fun r' hr' => (hlt r' hr').trans hgt
    rw [hsplit.eq, mem_append, mem_append] at hmem
    by_contra hge
    rw [back_nil hge] at hmem
    rcases hmem with (hmem | hmem) | hmem
    · exact absurd (hsplit.front_lt e hmem) (not_lt.mpr hgt.le)
    · exact absurd (SortedUpdate.mem_entry hmem) hgt.ne'
    · cases hmem
  have hgap := hinv.gap
  have hclear := hclear₁ hsame
  have hequal : s₁.newindex = s₁.oldindex := by omega
  cases hround with
  | absent hremove' => exact absurd hremove' (by rw [hremove]; exact Bool.false_ne_true)
  | drop hremove' => exact absurd hremove' (by rw [hremove]; exact Bool.false_ne_true)
  | add _ _ _ hstored hindex =>
    refine ⟨s', by rw [runRecord, hrun, map_some], hstored.safe hs₁ (hr.resolve_left ?_), ?_, ?_, ?_⟩
    · rw [hremove]
      exact Bool.false_ne_true
    · rw [hstored.newindex, hindex, hequal]
    · rw [hindex]
      exact hleft
    · rw [hindex, hstored.entry, if_pos hequal.symm]
  | change _ _ ho hj _ _ =>
    obtain ⟨j', hj', hold, hback⟩ := back_cons hs₁ hleft
    rw [hold] at ho
    rw [hback, SortedUpdate.hit, if_pos (some.inj ho)] at hnone
    cases hnone

/-- The records behind some others are merged too if there is room for them, and leave a number twice if not. -/
theorem Inv.run (hinv : Inv A c start old pre s) (hasc : Ascending (pre ++ post)) (hnum : ∀ r ∈ post, r.num < 2048)
    (hr : ∀ r ∈ post, r.remove = true ∨ r.num < maxEntities) :
    ∃ s', post.foldlM (runRecord A c) s = some s' ∧
      ((c.oldframe = some c.newframe → RoomFrom old pre post) → Inv A c start old (pre ++ post) s') ∧
      (c.oldframe = some c.newframe → ¬RoomFrom old pre post →
        ∃ s₂, propagateRest c (c.oldcount - s'.oldindex) s' = some s₂ ∧ Twice c s₂) := by
  induction post generalizing pre s with
  | nil =>
    refine ⟨s, rfl, fun _ => (append_nil pre).symm ▸ hinv, fun _ hroom => absurd ?_ hroom⟩
    intro a r b heq
    exact absurd heq.symm (append_ne_nil_of_right_ne_nil _ (cons_ne_nil _ _))
  | cons r post ih =>
    obtain ⟨-, hpost, hcross⟩ := List.pairwise_append.mp hasc
    have hlt : ∀ r' ∈ pre, r'.num < r.num := fun r' hr' => hcross r' hr' r (.head _)
    by_cases hroom : c.oldframe = some c.newframe → r.adds old = true →
      (∃ e ∈ old, r.num < e.1) → pre.countP (Record.adds old) < pre.countP (Record.drops old)
    · obtain ⟨s₁, hrun, hinv₁⟩ := hinv.step (hnum r (.head _)) (hr r (.head _)) hlt hroom
      have hasc₁ : Ascending (pre ++ [r] ++ post) := by rwa [append_assoc, singleton_append]
      obtain ⟨s', hrun', hgood, hbad⟩ := ih hinv₁ hasc₁ (fun r hr => hnum r (.tail _ hr)) fun r hr' => hr r (.tail _ hr')
      refine ⟨s', ?_, fun hall => ?_, fun hsame hnot => hbad hsame fun hall => hnot ?_⟩
      · rw [foldlM_cons, hrun]
        exact hrun'
      · have := hgood fun hsame => (roomFrom_cons.mp (hall hsame)).2
        rwa [append_assoc, singleton_append] at this
      · exact roomFrom_cons.mpr ⟨hroom hsame, hall⟩
    · obtain ⟨hsame, hroom⟩ := Classical.not_imp.mp hroom
      obtain ⟨hadds, hroom⟩ := Classical.not_imp.mp hroom
      obtain ⟨he, hroom⟩ := Classical.not_imp.mp hroom
      obtain ⟨s₁, hrun, hs₁, hstuck⟩ := hinv.stuck (hnum r (.head _)) (hr r (.head _)) hlt hsame hadds he hroom
      obtain ⟨s', s₂, hrun', hrest, htwice⟩ := hstuck.run (A := A) hs₁ hsame
        (fun r' hr' => ⟨(List.pairwise_cons.mp hpost).1 r' hr', hnum r' (.tail _ hr')⟩) fun r hr' => hr r (.tail _ hr')
      refine ⟨s', ?_, fun hall => absurd ((roomFrom_cons.mp (hall hsame)).1 hadds he) hroom, fun _ _ => ⟨s₂, hrest, htwice⟩⟩
      rw [foldlM_cons, hrun]
      exact hrun'

end Runs

/-! ## The call -/

/-- The entities of every frame are in its arrays, and no number is outside the table of entities. -/
def Good (tv : Sv F) : Prop :=
  ∀ j, (tv.frame j).numents ≤ (tv.frame j).maxents ∧ ∀ i < (tv.frame j).numents, ((tv.frame j).entry i).1 < maxEntities

section Calls

variable {A} {tv tv' : Sv F} {deltaframe : Option Byte} {m : List Byte}

theorem Good.safe (hgood : Good tv) (deltaframe : Option Byte) :
    Safe (tv.call deltaframe) tv.frame ⟨tv.frame, 0, 0⟩ := by
  have hcount : ∀ o, tv.oldSlot deltaframe = o → (tv.call deltaframe).oldcount = match o with
      | none => 0
      | some j => (tv.frame j).numents := by
    rintro _ rfl
    rfl
  refine ⟨hcount none, fun j hj => ?_, ⟨Nat.zero_le _, fun i hi => absurd hi (Nat.not_lt_zero i)⟩, fun _ _ => rfl⟩
  rw [hcount (some j) hj]
  exact hgood j

/-- The end of the call. -/
def finish (tv : Sv F) (s : Merge F) : Sv F :=
  { tv with
    incomingSequence := if tv.usequakeworldprotocols then tv.incomingSequence else tv.incomingSequence + 1
    frame := Function.update s.frame tv.newSlot { s.frame tv.newSlot with numents := s.newindex } }

/-- What the call comes to, after the loop over the records. -/
theorem parsePacketEntities_eq (hgood : Good tv) : parsePacketEntities A tv m deltaframe =
    (((records A tv.pext1 m).foldlM (runRecord A (tv.call deltaframe)) ⟨tv.frame, 0, 0⟩).bind fun s =>
      propagateRest (tv.call deltaframe) ((tv.call deltaframe).oldcount - s.oldindex) s).map (finish tv) := by
  unfold parsePacketEntities
  dsimp only
  rw [parseEntities_eq (Nat.lt_succ_self _) (hgood.safe deltaframe)]
  rfl

/-- The frames after a call whose numbers are in the table of entities. -/
structure Done (A : Formats F) (tv : Sv F) (deltaframe : Option Byte) (m : List Byte) (tv' : Sv F) (s s₂ : Merge F) :
    Prop where
  run : (records A tv.pext1 m).foldlM (runRecord A (tv.call deltaframe)) ⟨tv.frame, 0, 0⟩ = some s
  rest : propagateRest (tv.call deltaframe) ((tv.call deltaframe).oldcount - s.oldindex) s = some s₂
  parse : parsePacketEntities A tv m deltaframe = some tv'
  entries : (tv'.frame tv.newSlot).entries = front (tv.call deltaframe) s₂
  kept : ∀ j ≠ tv.newSlot, tv'.frame j = tv.frame j
  good : Good tv'

theorem exists_done (deltaframe : Option Byte) (hgood : Good tv)
    (hrs : ∀ r ∈ records A tv.pext1 m, r.remove ∨ r.num < maxEntities) :
    ∃ tv' s s₂, Done A tv deltaframe m tv' s s₂ := by
  obtain ⟨s, hrun, hs, -⟩ := runRecords_safe (fun _ => num_lt_of_mem) (hgood.safe deltaframe) hrs
  obtain ⟨s₂, hrest, hs₂, -⟩ := propagateRest_safe hs rfl
  have hkept : ∀ j ≠ tv.newSlot, (finish tv s₂).frame j = tv.frame j := fun j hj =>
    (update_of_ne hj _ _).trans (hs₂.kept j hj)
  have hnew : (finish tv s₂).frame tv.newSlot = { s₂.frame tv.newSlot with numents := s₂.newindex } :=
    update_self ..
  refine ⟨finish tv s₂, s, s₂, hrun, hrest, ?_, ?_, hkept, fun j => ?_⟩
  · rw [parsePacketEntities_eq hgood, hrun, bind_some, hrest, map_some]
  · rw [hnew]
    rfl
  · by_cases hj : j = tv.newSlot
    · subst hj
      rw [hnew]
      exact hs₂.new
    · rw [hkept j hj]
      exact hgood j

theorem parse_none (hgood : Good tv) (hrs : ¬∀ r ∈ records A tv.pext1 m, r.remove ∨ r.num < maxEntities) :
    parsePacketEntities A tv m deltaframe = none := by
  rw [parsePacketEntities_eq hgood, runRecords_none (fun _ => num_lt_of_mem) (hgood.safe deltaframe) hrs]
  rfl

/-- Before the first record, what is left is the old frame. -/
theorem Good.inv (hgood : Good tv) (hsorted : Sorted (tv.oldEntries deltaframe)) :
    Inv A (tv.call deltaframe) tv.frame (tv.oldEntries deltaframe) [] ⟨tv.frame, 0, 0⟩ := by
  have hback : back (tv.call deltaframe) ⟨tv.frame, 0, 0⟩ = tv.oldEntries deltaframe := by
    unfold back backFrom Sv.oldEntries Sv.call
    cases tv.oldSlot deltaframe with
    | none => rfl
    | some j =>
      dsimp only
      rw [← range_eq_range']
      rfl
  refine ⟨hgood.safe deltaframe, fun _ => .inl le_rfl, fun us => ?_, hback ▸ hsorted, rfl, fun k _ => ?_,
    fun e he _ => ?_, ?_⟩
  · rw [hback]
    rfl
  · rw [hback]
  · rw [hback]
    exact he
  · rw [hback]
    exact List.Subset.refl _

theorem good_of_reachable (hreach : Reachable A tv) : Good tv := by
  induction hreach with
  | start hempty =>
    intro j
    obtain ⟨hnum, hmax⟩ := hempty j
    refine ⟨by rw [hnum, hmax], fun i hi => ?_⟩
    rw [hnum] at hi
    exact absurd hi (Nat.not_lt_zero i)
  | @parse tv tv' m deltaframe _ hparse ih =>
    by_cases hrs : ∀ r ∈ records A tv.pext1 m, r.remove = true ∨ r.num < maxEntities
    · obtain ⟨tv₂, s, s₂, hdone⟩ := exists_done (A := A) deltaframe ih hrs
      rw [hdone.parse] at hparse
      cases hparse
      exact hdone.good
    · rw [parse_none ih hrs] at hparse
      cases hparse
  | other _ hframe ih =>
    intro j
    rw [hframe]
    exact ih j

end Calls

/-- **A call leaves the old frame, updated by the message, in the new one exactly if no entity that the message does not
remove has a number from 512 on, and a delta against the slot of the new frame adds in front of old entities no more than it
removed before.** -/
theorem packetEntities_iff {tv : Sv F} (hreach : Reachable A tv) (deltaframe : Option Byte) (m : List Byte) :
    tv.Updated A deltaframe m ↔ tv.Met A deltaframe m := by
  have hgood := good_of_reachable hreach
  constructor
  · rintro ⟨tv', hparse, -, -, hupdate⟩
    have hrs : ∀ r ∈ records A tv.pext1 m, r.remove = true ∨ r.num < maxEntities := by
      by_contra hrs
      rw [parse_none hgood hrs] at hparse
      cases hparse
    refine ⟨hrs, fun hsame hsorted hasc => ?_⟩
    obtain ⟨tv₂, s, s₂, hdone⟩ := exists_done deltaframe hgood hrs
    rw [hdone.parse] at hparse
    cases hparse
    obtain ⟨s', hrun, -, htwice⟩ := (hgood.inv hsorted).run hasc (fun _ => num_lt_of_mem) hrs
    rw [hdone.run] at hrun
    cases hrun
    by_contra hroom
    obtain ⟨s₃, hrest, htwice⟩ := htwice hsame hroom
    rw [hdone.rest] at hrest
    cases hrest
    exact htwice.not_sorted (hdone.entries ▸ (hupdate hsorted hasc).1)
  · rintro ⟨hrs, hroom⟩
    obtain ⟨tv', s, s₂, hdone⟩ := exists_done deltaframe hgood hrs
    refine ⟨tv', hdone.parse, fun j => (hdone.good j).1, hdone.kept, fun hsorted hasc => ?_⟩
    obtain ⟨s', hrun, hinv, -⟩ := (hgood.inv hsorted).run hasc (fun _ => num_lt_of_mem) hrs
    rw [hdone.run] at hrun
    cases hrun
    have hinv := hinv fun hsame => hroom hsame hsorted hasc
    obtain ⟨s₃, hrest, hfront⟩ := propagateRest_spec hinv.safe hinv.clear rfl
    rw [hdone.rest] at hrest
    cases hrest
    have hmerge := hinv.merge []
    rw [List.append_nil, SortedUpdate.merge, ← hfront, ← hdone.entries] at hmerge
    have hus : Sorted ((records A tv.pext1 m).map (Record.update A tv.pext1 tv.baseline)) := List.pairwise_map.mpr hasc
    have hlookup := SortedUpdate.lookup_merge hsorted hus
    have hsorted' := SortedUpdate.sorted_merge hsorted hus
    exact ⟨hmerge ▸ hsorted', fun k => by rw [← hlookup k]; exact congrArg (List.lookup k) hmerge.symm⟩

/-- Formats that keep the bits. -/
def bitFormats : Formats ℕ := ⟨BitVec.toNat, BitVec.toNat, BitVec.toNat, BitVec.toNat⟩

/-- An entity that is all zeros. -/
def nullEntity : EntityState ℕ :=
  ⟨0, 0, 0, 0, fun _ => 0, fun _ => 0, 0, 0, 0, fun _ => 0, 0, fun _ => 0, 0, 0, 0, 0, 0, 0, 0⟩

/-- A proxy that was just started. -/
def startSv : Sv ℕ := ⟨true, 0, 0, fun _ => nullEntity, fun _ => ⟨0, 0, fun _ => nullEntity, fun _ => 0⟩⟩

theorem packetEntities_iff_start : Reachable bitFormats startSv ∧
    (startSv.Updated bitFormats none [0x01, 0x20, 0x05, 0, 0] ↔
      startSv.Met bitFormats none [0x01, 0x20, 0x05, 0, 0]) :=
  have hstart : Reachable bitFormats startSv := .start fun _ => ⟨rfl, rfl⟩
  ⟨hstart, packetEntities_iff bitFormats hstart none _⟩

/-- Entity 512 is outside the table. -/
theorem packetEntities_outside : ¬∀ tv : Sv ℕ, Reachable bitFormats tv → ∀ deltaframe m,
    tv.Updated bitFormats deltaframe m := by
  intro hall
  obtain ⟨tv', hparse, -⟩ := hall startSv (.start fun _ => ⟨rfl, rfl⟩) none [0x00, 0x80, 0x80, 0x20]
  have hnone : (parsePacketEntities bitFormats startSv [0x00, 0x80, 0x80, 0x20] none).isNone = true := by decide
  rw [hparse] at hnone
  cases hnone

end PacketEntities

end FteQuake
