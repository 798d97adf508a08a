import FteQuake.Common.FteEntity
import FteQuake.Common.MsgWrite
import FteQuake.Lib.RequestLog
import Mathlib.Logic.Function.Basic

/-!
# The log of what a packet has sent

`SVFTE_EmitPacketEntities` and `SV_EmitCSQCUpdate` of `sv_ents.c` note every entity that they send in
the log of the packet's frame, to send it again when the packet is lost. The log has a size, which is
the same for every frame and grows with `SV_ExpandNackFrames` up to one entry for every entity. What
the entries say is left out here, and so are the positions of players that are kept for antilag. The
packet `to` is `pack`; arrays of entities are functions, of which what lies beyond the allocated part is
as `memset` leaves it.

Both are programs that ask for places (`Logger`), on a log that fails where a store is outside
(`deltaLog`, `csqcLog`). The first asks in time. The second notices that a log is full one entry late,
so it stores outside exactly where it has more to note than there is room for (`emit_inside`).
-/

namespace FteQuake

namespace ResendLog

open BitFlags BinaryFloat

/-! ## Frames -/

/-- `UPDATE_BACKUP`. -/
def updateBackup : ℕ := 64

/-- `client_frame_t`: the log, of which `numresend` entries are in use, and the base angles. -/
structure ClientFrame where
  sequence : BitVec 32
  numresend : ℕ
  maxresend : ℕ
  baseangles : ℕ → Fin 3 → BitVec 16
  baseanglelocked : ℕ → BitVec 32

/-- The frames of a client, as `SV_ClientProtocolExtensionsChanged` sets them up. -/
def setupFrames (maxpacketentities maxNetEnts : ℕ) : ℕ → ClientFrame := fun _ =>
  { sequence := 0, numresend := 0, maxresend := min (maxpacketentities * 4) maxNetEnts
    baseangles := fun _ _ => 0, baseanglelocked := fun _ => 0 }

/-- `SV_ExpandNackFrames`. -/
def svExpandNackFrames (maxNetEnts require : ℕ) (frames : ℕ → ClientFrame) : ℕ → ClientFrame := fun i =>
  { frames i with maxresend := min (require * 2) maxNetEnts }

/-- A log that is being filled: the frame, and the next entry. -/
structure LogState where
  frames : ℕ → ClientFrame
  index : ℕ
  next : ℕ

namespace LogState

/-- `frame->maxresend`. -/
def size (s : LogState) : ℕ := (s.frames s.index).maxresend

/-- `resend[next++] = ...`. -/
def store (s : LogState) : Option LogState := if s.next < s.size then some { s with next := s.next + 1 } else none

/-- What is done where the log is full: it grows, unless there is an entry for every entity. -/
def grow (maxNetEnts : ℕ) (s : LogState) : Bool × LogState :=
  if s.size = maxNetEnts then (false, s)
  else (true, { s with frames := svExpandNackFrames maxNetEnts (s.next + 1) s.frames })

end LogState

/-- The log of `SVFTE_EmitPacketEntities`: `if (outno >= outmax)`. -/
def deltaLog (maxNetEnts : ℕ) : RequestLog LogState where
  place s := if s.next ≥ s.size then s.grow maxNetEnts else (true, s)
  store := LogState.store

/-- The log of `SV_EmitCSQCUpdate`: `if (lognum > maxlog)`. -/
def csqcLog (maxNetEnts : ℕ) : RequestLog LogState where
  place s := if s.next > s.size then s.grow maxNetEnts else (true, s)
  store := LogState.store

/-! ## Clients -/

/-- The base angles of a player at the client. -/
structure Seat where
  seat : QByte
  baseangles : Fin 3 → BitVec 16
  baseanglelock : BitVec 32

/-- `packet_entities_t`. -/
structure PacketEntities where
  entities : ℕ → EntityState
  numEntities : ℕ
  bones : BonePack

/-- `client_t`. The two arrays of flags are there together (`tracked`); the client and those it controls
are its `seats`. -/
structure Client where
  isNqClient : Bool
  csqcactive : Bool
  tracked : Bool
  pendingdeltabits : ℕ → BitVec 32
  pendingcsqcbits : ℕ → BitVec 64
  maxNetEnts : ℕ
  deltaSequence : BitVec 32
  fteprotocolextensions2 : BitVec 32
  ezprotocolextensions1 : BitVec 32
  lastSequence : BitVec 32
  outgoingSequence : BitVec 32
  outgoingUnreliable : BitVec 32
  incomingSequence : BitVec 32
  sentents : PacketEntities
  nextdeltaindex : ℕ
  edict : Option ℕ
  specTrack : ℕ
  seats : List Seat
  frames : ℕ → ClientFrame

/-- What the server knows of the world: `PVSF_NOREMOVE` and the baseline of an entity, the time, the slots
of players, and whether an entity is the one of `host_client`. -/
structure Sv where
  noremove : ℕ → Bool
  baseline : ℕ → EntityState
  physicstime : ℚ
  allocatedClientSlots : ℕ
  svsAllocatedClientSlots : ℕ
  us : BitVec 32 → Bool

/-- The place of a sequence number among the frames. -/
def slot (sequence : BitVec 32) : ℕ := (sequence &&& BitVec.ofNat 32 (updateBackup - 1)).toNat

/-- How a call ends that does not return: by a store outside the log, or by an error. -/
inductive Halt
  | outside
  | error
  deriving DecidableEq, Repr

/-- A message is written, or that is an error. -/
def write (w : MsgWriter Unit) (msg : Sizebuf) : Except Halt Sizebuf :=
  match w.run msg with
  | some r => .ok r.2
  | none => .error .error

/-- `SV_EmitDeltaEntIndex`. -/
def svEmitDeltaEntIndex (entnum : ℕ) (remove big : Bool) : MsgWriter Unit :=
  let rflag := if remove then 0x8000 else 0
  if big then
    if entnum ≥ 0x4000 then do
      msgWriteShort ((entnum &&& 0x3fff) ||| 0x4000 ||| rflag : ℕ)
      msgWriteByte (entnum >>> 14 : ℕ)
    else msgWriteShort (entnum ||| rflag : ℕ)
  else msgWriteShort (entnum ||| rflag : ℕ)

/-! ## `SVFTE_EmitPacketEntities` -/

/-- `UF_SV_REMOVE`. -/
def ufSvRemove : BitVec 32 := uf16bitLerptime

/-- `UF_SV_RESET2`. -/
def ufSvReset2 : BitVec 32 := ufExtend1

/-- `PEXT2_VRINPUTS`. -/
def pext2Vrinputs : BitVec 32 := 0x200

/-- `MAX_SPLITS`. -/
def maxSplits : ℕ := 4

namespace PacketEntities

/-- `entities[j] = e`. -/
def set (p : PacketEntities) (j : ℕ) (e : EntityState) : PacketEntities :=
  { p with entities := Function.update p.entities j e }

/-- `entities[j] = e`, with bones of its own. -/
def setBones (p : PacketEntities) (j : ℕ) (e : EntityState) (bones : List QByte) : PacketEntities :=
  { p with
    entities := Function.update p.entities j { e with boneoffset := (p.bones.allocate bones).1 }
    bones := (p.bones.allocate bones).2 }

/-- The entities in order. -/
def toList (p : PacketEntities) : List EntityState := (List.range p.numEntities).map p.entities

end PacketEntities

namespace Client

/-- `client->pendingdeltabits[j] = bits`. -/
def setPending (c : Client) (j : ℕ) (bits : BitVec 32) : Client :=
  { c with pendingdeltabits := Function.update c.pendingdeltabits j bits }

/-- All that the client has is forgotten. -/
def forgetSent (c : Client) : Client :=
  let c := (List.range c.sentents.numEntities).foldl (fun c j =>
    { c.setPending j 0 with sentents := c.sentents.set j { c.sentents.entities j with number := 0 } }) c
  c.setPending 0 ufSvRemove

/-- The list is cleared and starts from scratch, when the client has lost track or is to. -/
def wipeSent (c : Client) : Client :=
  let c := if c.deltaSequence.slt 0 then c.setPending 0 ufSvRemove else c
  if c.pendingdeltabits 0 &&& ufSvRemove ≠ 0 then c.forgetSent else c

/-- The list grows to the last entity of `pack`. -/
def expandSent (c : Client) (pack : PacketEntities) : Client :=
  if pack.numEntities ≠ 0 then
    let j := ((pack.entities (pack.numEntities - 1)).number + 1).toNat
    let sent := (List.range' c.sentents.numEntities (j - c.sentents.numEntities)).foldl (fun sent i =>
      { sent.set i { sent.entities i with number := 0 } with numEntities := i + 1 }) c.sentents
    { c with sentents := sent }
  else c

/-- The bones are dropped, to be allocated again. -/
def orphanBones (c : Client) : Client :=
  { c with sentents := { c.sentents with bones := ⟨fun _ => 0, 0⟩ } }

/-- The entity `j` is not in the packet: it is dead, unless it is not to be removed. -/
def dropEntity (sv : Sv) (oldbones : Mem QByte) (c : Client) (j : ℕ) : Client :=
  let o := c.sentents.entities j
  if o.number = 0 then c
  else if !sv.noremove o.number.toNat then
    { c.setPending j ufSvRemove with sentents := c.sentents.set j { o with number := 0, bonecount := 0 } }
  else if o.bonecount ≠ 0 then { c with sentents := c.sentents.setBones j o (boneBytes oldbones o) }
  else c

/-- Spectators and recordings are told the view angles of the one that they track. -/
def Tracks (c : Client) (sv : Sv) (j : ℕ) : Prop :=
  j ≤ sv.allocatedClientSlots ∧ (c.edict = none ∨ j = c.specTrack)

instance (c : Client) (sv : Sv) (j : ℕ) : Decidable (c.Tracks sv j) :=
  inferInstanceAs (Decidable (_ ∧ (_ ∨ _)))

/-- What is pending of the entity `j` that becomes `n`. -/
def markBits (c : Client) (sv : Sv) (oldbones tobones : Mem QByte) (j : ℕ) (n : EntityState) : BitVec 32 :=
  let o := c.sentents.entities j
  let bits := c.pendingdeltabits j
  if o.number = 0 then ufReset ||| ufSvReset2
  else
    let bits := if bits &&& ufSvRemove ≠ 0 then bits &&& ~~~ufSvRemove ||| ufSvReset2 else bits
    bits ||| svfteDeltaCalcBits o oldbones n tobones c.fteprotocolextensions2 (sv.us n.number)
      |> orIf (c.edict = some j ∧ (n.velocity 0 ≠ 0 ∨ n.velocity 1 ≠ 0 ∨ n.velocity 2 ≠ 0)) ufPredinfo
      |> orIf (c.Tracks sv j ∧ (o.vangle 0 ≠ n.vangle 0 ∨ o.vangle 2 ≠ n.vangle 2)) ufAnglesxz
      |> orIf (c.Tracks sv j ∧ o.vangle 1 ≠ n.vangle 1) ufAnglesy
      |> orIf (c.Tracks sv j) ufSvViewangles

/-- The entity `j` becomes `n`. -/
def markEntity (sv : Sv) (oldbones tobones : Mem QByte) (c : Client) (j : ℕ) (n : EntityState) : Client :=
  { c.setPending j (c.markBits sv oldbones tobones j n) with
    sentents := if n.bonecount ≠ 0 then c.sentents.setBones j n (boneBytes tobones n) else c.sentents.set j n }

/-- The entities from `j` up to `k` are not in the packet. -/
def dropEntities (sv : Sv) (oldbones : Mem QByte) (c : Client) (j k : ℕ) : Client :=
  (List.range' j (k - j)).foldl (dropEntity sv oldbones) c

/-- The entities that changed, removed and active. -/
def markEntities (sv : Sv) (oldbones tobones : Mem QByte) : List EntityState → ℕ → Client → ℕ × Client
  | [], j, c => (j, c)
  | n :: ns, j, c =>
    let k := max j n.number.toNat
    markEntities sv oldbones tobones ns (k + 1)
      (markEntity sv oldbones tobones (c.dropEntities sv oldbones j n.number.toNat) k n)

/-- What is noted of the packet before any of it is sent, and `j` after that. -/
def regenerate (sv : Sv) (c : Client) (pack : PacketEntities) : ℕ × Client :=
  let c := c.wipeSent.expandSent pack
  let oldbones := c.sentents.bones.bonedata
  let r := markEntities sv oldbones pack.bones.bonedata pack.toList 0 c.orphanBones
  (max r.1 r.2.sentents.numEntities, r.2.dropEntities sv oldbones r.1 r.2.sentents.numEntities)

/-- The sequence of the frame that the packet goes into. -/
def frameSequence (c : Client) : BitVec 32 := if c.isNqClient then c.outgoingUnreliable else c.incomingSequence

end Client

/-- The base angles of a player, when the client has others. -/
def writeAngleBase (ackedframe : ClientFrame) (i : ℕ) (seat : Seat) : MsgWriter Unit :=
  if ackedframe.baseanglelocked i ≠ seat.baseanglelock ∨ ackedframe.baseangles i ≠ seat.baseangles then do
    let fl : QByte := 0 |> orIf (seat.baseangles 0 ≠ 0) 1 |> orIf (seat.baseangles 1 ≠ 0) 2
      |> orIf (seat.baseangles 2 ≠ 0) 4 |> orIf (ackedframe.baseanglelocked i ≠ seat.baseanglelock) 8
    if seat.seat ≠ 0 then do
      msgWriteByte 68
      msgWriteByte seat.seat.toNat
    msgWriteByte 93
    msgWriteByte fl.toNat
    if fl &&& 1 ≠ 0 then msgWriteShort (seat.baseangles 0).toInt
    if fl &&& 2 ≠ 0 then msgWriteShort (seat.baseangles 1).toInt
    if fl &&& 4 ≠ 0 then msgWriteShort (seat.baseangles 2).toInt
  else pure ()

def writeAngleBases (ackedframe : ClientFrame) : ℕ → List Seat → MsgWriter Unit
  | _, [] => pure ()
  | i, seat :: seats => do
    writeAngleBase ackedframe i seat
    writeAngleBases ackedframe (i + 1) seats

/-- The base angles that the packet sends are those of its frame. -/
def ClientFrame.copyAngleBases (frame : ClientFrame) (seats : List Seat) : ClientFrame :=
  { frame with
    baseangles := fun i => (seats[i]?).elim (frame.baseangles i) Seat.baseangles
    baseanglelocked := fun i => (seats[i]?).elim (frame.baseanglelocked i) Seat.baseanglelock }

/-- A packet that is being written, and what is pending. -/
structure Sending where
  msg : Sizebuf
  pending : ℕ → BitVec 32

/-- The entity `j` is left for a later packet: the last packet ended beyond it. -/
def Skips (sv : Sv) (c : Client) (j : ℕ) (bits : BitVec 32) : Prop :=
  bits &&& ufSvRemove = 0 ∧ (c.sentents.entities j).number ≠ 0 ∧ j < c.nextdeltaindex ∧
    j > sv.svsAllocatedClientSlots

instance (sv : Sv) (c : Client) (j : ℕ) (bits : BitVec 32) : Decidable (Skips sv c j bits) :=
  inferInstanceAs (Decidable (_ ∧ _ ∧ _ ∧ _))

/-- The bits of an update: a reset starts from the baseline. -/
def updateBits (sv : Sv) (c : Client) (j : ℕ) (bits : BitVec 32) : BitVec 32 :=
  let e := c.sentents.entities j
  if bits &&& ufSvReset2 ≠ 0 ∨ bits &&& ufReset ≠ 0 then
    ufReset ||| svfteDeltaCalcBits (sv.baseline j) (fun _ => 0) e c.sentents.bones.bonedata
      c.fteprotocolextensions2 (sv.us e.number)
  else bits

/-- The message about the entity `j`. -/
def writeEntity (sv : Sv) (c : Client) (j : ℕ) (bits : BitVec 32) : MsgWriter Unit :=
  if bits &&& ufSvRemove ≠ 0 then svEmitDeltaEntIndex j true true
  else if (c.sentents.entities j).number ≠ 0 then do
    svEmitDeltaEntIndex j false true
    svfteWriteUpdate (updateBits sv c j bits) (c.sentents.entities j) c.fteprotocolextensions2
      c.ezprotocolextensions1 sv.physicstime (some c.sentents.bones.bonedata)
  else pure ()

/-- The loop over the entities, from `j` on: whether the message was full, and where the loop ended. -/
def sendEntities (sv : Sv) (c : Client) : (n j : ℕ) → Sending → Logger (Option (Bool × ℕ × Sending))
  | 0, j, s => .done (some (false, j, s))
  | n + 1, j, s =>
    if s.pending j &&& ~~~ufSvReset2 = 0 then sendEntities sv c n (j + 1) s
    else if s.msg.cursize + 52 > s.msg.maxsize then .done (some (true, j, s))
    else .ask (¬Skips sv c j (s.pending j)) fun ok =>
      if !ok then .done (some (false, j, s))
      else if Skips sv c j (s.pending j) then sendEntities sv c n (j + 1) s
      else match (writeEntity sv c j (s.pending j)).run s.msg with
        -- what the branch of `UF_RESET` leaves pending is cleared here too
        | some r => sendEntities sv c n (j + 1) ⟨r.2, Function.update s.pending j 0⟩
        | none => .done none

/-- What comes before the entities. -/
def writeHeader (sv : Sv) (c : Client) : MsgWriter Unit := do
  msgWriteByte 86
  if c.isNqClient ∧ c.fteprotocolextensions2 &&& pext2Predinfo ≠ 0 then
    msgWriteShort (c.lastSequence &&& 0xffff).toNat
  msgWriteFloat (ofRat sv.physicstime)

/-- A store outside the log ends the call. -/
def inside {α : Type*} : Option α → Except Halt α
  | some a => .ok a
  | none => .error .outside

/-- What ends by an error. -/
def finish {α : Type*} : Option α → Except Halt α
  | some a => .ok a
  | none => .error .error

/-- The removal of all that the client has, which is sent first. -/
def sendWipe (s : Sending) (log : LogState) : Except Halt (Sending × LogState) :=
  if s.pending 0 &&& ufSvRemove ≠ 0 then do
    let msg ← write (svEmitDeltaEntIndex 0 true true) s.msg
    let log ← inside log.store
    return (⟨msg, Function.update s.pending 0 (s.pending 0 &&& ~~~ufSvRemove)⟩, log)
  else return (s, log)

/-- The part of the packet that is about entities. -/
def sendPacket (sv : Sv) (c : Client) (msg : Sizebuf) (log : LogState) :
    Except Halt ((Bool × ℕ × Sending) × LogState) := do
  let msg ← write (writeHeader sv c) msg
  let (s, log) ← sendWipe ⟨msg, c.pendingdeltabits⟩ log
  let (r, log) ← inside ((sendEntities sv c (c.sentents.numEntities - 1) 1 s).run (deltaLog c.maxNetEnts) log)
  let (overflow, j, s) ← finish r
  let msg ← write (msgWriteShort 0) s.msg
  return ((overflow, j, { s with msg := msg }), log)

/-- The frame of the packet gets the base angles that are sent with it. -/
def sendAngleBases (c : Client) (msg : Sizebuf) : Except Halt (Client × Sizebuf) :=
  if c.fteprotocolextensions2 &&& pext2Vrinputs ≠ 0 then do
    let seats := c.seats.take maxSplits
    let frame := c.frames (slot c.frameSequence)
    let msg ← write (writeAngleBases (c.frames (slot c.deltaSequence)) 0 seats) msg
    return ({ c with frames := Function.update c.frames (slot c.frameSequence) (frame.copyAngleBases seats) }, msg)
  else return (c, msg)

/-- What the client keeps of a packet that ended at `j`. -/
def Client.sent (c : Client) (j : ℕ) (s : Sending) (log : LogState) : Client :=
  { c with
    pendingdeltabits := s.pending
    nextdeltaindex := if j = c.sentents.numEntities then 0 else j
    frames := Function.update log.frames log.index
      { log.frames log.index with numresend := log.next, sequence := c.frameSequence } }

/-- `SVFTE_EmitPacketEntities`: whether the message was full, the client and the message. -/
def svfteEmitPacketEntities (sv : Sv) (c : Client) (pack : PacketEntities) (msg : Sizebuf) :
    Except Halt (Bool × Client × Sizebuf) :=
  if !c.tracked then return (false, c, msg)
  else do
    let (j, c) := c.regenerate sv pack
    let (c, msg) ← sendAngleBases c msg
    let log := ⟨c.frames, slot c.frameSequence, 0⟩
    if msg.cursize + 52 ≤ msg.maxsize then do
      let ((overflow, j, s), log) ← sendPacket sv c msg log
      return (overflow, c.sent j s log, s.msg)
    else return (false, c.sent j ⟨msg, c.pendingdeltabits⟩ log, msg)

/-! ## `SV_EmitCSQCUpdate` -/

/-- `SENDFLAGS_PRESENT`. -/
def sendflagsPresent : BitVec 64 := 1

/-- `SENDFLAGS_REMOVED`. -/
def sendflagsRemoved : BitVec 64 := 2

/-- `SENDFLAGS_SHIFT`. -/
def sendflagsShift : ℕ := 2

/-- `SENDFLAGS_USABLE`. -/
def sendflagsUsable : BitVec 64 := ~~~(sendflagsPresent ||| sendflagsRemoved)

/-- The game: `PVSF_NOREMOVE` of an entity, and the `SendEntity` of one, which is told who looks and what
changed, writes a message, and says whether the client is to have it. It may flag entities on its way. -/
structure Game (W : Type) where
  noremove : W → ℕ → Bool
  sendEntity : W → (ent viewerent : ℕ) → (flags : BitVec 64) → (pending : ℕ → BitVec 64) →
    W × (ℕ → BitVec 64) × Bool × List QByte

/-- An update that is being written. -/
structure Update (W : Type) where
  world : W
  pending : ℕ → BitVec 64
  msg : Sizebuf
  writtenheader : Bool

/-- What does not change while an update is written. -/
structure UpdateTo where
  svcnumber : ℕ
  big : Bool
  viewerent : ℕ

section Update

variable {W : Type}

/-- The kind of message comes before the first entity. -/
def Update.write (s : Update W) (u : UpdateTo) (w : MsgWriter Unit) : Option (Update W) :=
  (if s.writtenheader then w else do msgWriteByte u.svcnumber; w).run s.msg |>.map fun r =>
    { s with msg := r.2, writtenheader := true }

/-- `client->pendingcsqcbits[entnum] = bits`. -/
def Update.setPending (s : Update W) (entnum : ℕ) (bits : BitVec 64) : Update W :=
  { s with pending := Function.update s.pending entnum bits }

/-- The entities from `entnum` on for `n` have no update: where they are at the client, they are removed.
The result says where it ended. -/
def removeEntities (G : Game W) (u : UpdateTo) : (n entnum : ℕ) → Update W → Logger (Option (ℕ × Update W))
  | 0, entnum, s => .done (some (entnum, s))
  | n + 1, entnum, s =>
    if s.pending entnum &&& (sendflagsPresent ||| sendflagsRemoved) = 0 then removeEntities G u n (entnum + 1) s
    else if s.pending entnum &&& sendflagsRemoved = 0 ∧ G.noremove s.world entnum then
      removeEntities G u n (entnum + 1) s
    else if s.msg.cursize + 5 ≥ s.msg.maxsize then .done (some (entnum, s))
    else .ask true fun ok =>
      if !ok then .done (some (entnum, s))
      else match s.write u (svEmitDeltaEntIndex entnum true u.big) with
        | some s => removeEntities G u n (entnum + 1) (s.setPending entnum 0)
        | none => .done none

/-- What is sent of an entity: all of it, when it is new or was removed in between. -/
def csqcBits (bits : BitVec 64) : BitVec 64 :=
  let bits := if bits &&& sendflagsRemoved ≠ 0 then sendflagsUsable else bits
  if bits &&& sendflagsPresent = 0 then sendflagsUsable else bits

/-- The update of an entity. -/
def writeCsqcEntity (u : UpdateTo) (entnum : ℕ) (data : List QByte) : MsgWriter Unit := do
  svEmitDeltaEntIndex entnum false u.big
  if u.svcnumber = 92 then msgWriteShort data.length
  szWrite data

/-- The game has written `data` for the client. The results say whether the loop goes on. -/
def sendUpdate (u : UpdateTo) (entnum : ℕ) (bits : BitVec 64) (data : List QByte) (s : Update W) :
    Logger (Option (Bool × Update W)) :=
  if s.msg.cursize + data.length + 5 ≥ s.msg.maxsize then
    -- another entity might fit where this one does not
    .done (some (!decide (data.length < 32), s.setPending entnum bits))
  else .ask true fun ok =>
    if !ok then .done (some (false, s.setPending entnum bits))
    else .done <| (s.write u (writeCsqcEntity u entnum data)).map fun s =>
      (true, s.setPending entnum (s.pending entnum ||| sendflagsPresent))

/-- The game has nothing for the client, which has the entity. -/
def sendRemove (u : UpdateTo) (entnum : ℕ) (bits : BitVec 64) (s : Update W) :
    Logger (Option (Bool × Update W)) :=
  if s.msg.cursize + 5 ≥ s.msg.maxsize then .done (some (false, s.setPending entnum bits))
  else .ask true fun ok =>
    if !ok then .done (some (false, s.setPending entnum bits))
    else .done <| (s.write u (svEmitDeltaEntIndex entnum true u.big)).map fun s => (true, s)

/-- The entity `ent`, whose number is `entnum` unless the removals before it were cut short. -/
def updateEntity (G : Game W) (u : UpdateTo) (ent entnum : ℕ) (s : Update W) : Logger (Option (Bool × Update W)) :=
  if s.pending entnum = sendflagsPresent then .done (some (true, s))
  else
    let bits := csqcBits (s.pending entnum)
    let r := G.sendEntity s.world ent u.viewerent (bits >>> sendflagsShift) (Function.update s.pending entnum 0)
    let s := { s with world := r.1, pending := r.2.1 }
    if r.2.2.1 then sendUpdate u entnum bits r.2.2.2 s
    else if bits &&& sendflagsPresent ≠ 0 ∧ !G.noremove s.world ent then sendRemove u entnum bits s
    else .done (some (true, s))

/-- The entities of the game, with the removals before each. -/
def updateEntities (G : Game W) (u : UpdateTo) : List ℕ → ℕ → Update W → Logger (Option (ℕ × Update W))
  | [], entnum, s => .done (some (entnum, s))
  | ent :: ents, entnum, s =>
    (removeEntities G u (ent - entnum) entnum s).andThen fun r =>
      (updateEntity G u ent r.1 r.2).andThen fun t =>
        if t.1 then updateEntities G u ents (r.1 + 1) t.2 else .done (some (r.1, t.2))

/-- The game and the entities that it has for the client: `csqcent`, `sv.world.num_edicts`. -/
structure Csqc (W : Type) where
  world : W
  csqcent : List ℕ
  numEdicts : ℕ

/-- What an update stores in the log, and the update. -/
def csqcUpdate (G : Game W) (q : Csqc W) (c : Client) (u : UpdateTo) (msg : Sizebuf) : Logger (Option (ℕ × Update W)) :=
  (updateEntities G u q.csqcent 0 ⟨q.world, c.pendingcsqcbits, msg, false⟩).andThen fun r =>
    removeEntities G u (min c.maxNetEnts q.numEdicts - r.1) r.1 r.2

/-- What an update is for; with `sv_csqcdebug` every entity says how long it is. -/
def updateTo (c : Client) (csqcdebug : Bool) (svcnumber : ℕ) : UpdateTo :=
  { svcnumber := if csqcdebug then 92 else svcnumber
    big := c.fteprotocolextensions2 &&& pext2Replacementdeltas ≠ 0
    viewerent := c.edict.getD 0 }

/-- The frame of an update. -/
def Client.csqcFrame (c : Client) : ClientFrame := c.frames (slot c.outgoingSequence)

/-- What the client keeps of an update. -/
def Client.updated (c : Client) (s : Update W) (log : LogState) : Client :=
  { c with
    pendingcsqcbits := s.pending
    frames := Function.update log.frames log.index { log.frames log.index with numresend := log.next } }

/-- `SV_EmitCSQCUpdate`. -/
def svEmitCSQCUpdate (G : Game W) (csqcdebug : Bool) (q : Csqc W) (c : Client) (msg : Sizebuf) (svcnumber : ℕ) :
    Except Halt (Csqc W × Client × Sizebuf) :=
  if !c.csqcactive ∨ !c.tracked then return (q, c, msg)
  else do
    let (r, log) ← inside ((csqcUpdate G q c (updateTo c csqcdebug svcnumber) msg).run (csqcLog c.maxNetEnts)
      ⟨c.frames, slot c.outgoingSequence, c.csqcFrame.numresend⟩)
    let (_, s) ← finish r
    let msg ← write (if s.writtenheader then msgWriteShort 0 else pure ()) s.msg
    return ({ q with world := s.world, csqcent := [] }, c.updated s log, msg)

end Update

/-! ## The sizes of the logs -/

/-- Every frame has a log of the same size, with room for an entry and for no more than one of every
entity, and no log has more entries in use than it has. -/
structure FramesOk (maxNetEnts : ℕ) (frames : ℕ → ClientFrame) : Prop where
  maxresend_pos (i : ℕ) : 0 < (frames i).maxresend
  maxresend_le (i : ℕ) : (frames i).maxresend ≤ maxNetEnts
  maxresend_eq (i j : ℕ) : (frames i).maxresend = (frames j).maxresend
  numresend_le (i : ℕ) : (frames i).numresend ≤ (frames i).maxresend

variable {maxNetEnts : ℕ} {frames : ℕ → ClientFrame}

theorem setupFrames_ok {maxpacketentities : ℕ} (hmax : 0 < maxpacketentities) (hents : 0 < maxNetEnts) :
    FramesOk maxNetEnts (setupFrames maxpacketentities maxNetEnts) where
  maxresend_pos i := by
    change 0 < min (maxpacketentities * 4) maxNetEnts
    omega
  maxresend_le i := Nat.min_le_right _ _
  maxresend_eq i j := rfl
  numresend_le i := Nat.zero_le _

/-- The logs grow. -/
theorem FramesOk.expand (h : FramesOk maxNetEnts frames) {require : ℕ} (i : ℕ)
    (hrequire : (frames i).maxresend < require) : FramesOk maxNetEnts (svExpandNackFrames maxNetEnts require frames) where
  maxresend_pos j := by
    have := h.maxresend_pos i
    have := h.maxresend_le i
    change 0 < min (require * 2) maxNetEnts
    omega
  maxresend_le j := Nat.min_le_right _ _
  maxresend_eq j k := rfl
  numresend_le j := by
    have := h.numresend_le j
    have := h.maxresend_le j
    have := h.maxresend_eq j i
    change (frames j).numresend ≤ min (require * 2) maxNetEnts
    omega

/-- A frame changes, and keeps its log. -/
theorem FramesOk.update (h : FramesOk maxNetEnts frames) {i : ℕ} {frame : ClientFrame}
    (hmax : frame.maxresend = (frames i).maxresend) (hnum : frame.numresend ≤ frame.maxresend) :
    FramesOk maxNetEnts (Function.update frames i frame) := by
  have hsize (j : ℕ) : (Function.update frames i frame j).maxresend = (frames j).maxresend := by
    rcases eq_or_ne j i with rfl | hj
    · rw [Function.update_self, hmax]
    · rw [Function.update_of_ne hj]
  refine ⟨fun j => ?_, fun j => ?_, fun j k => ?_, fun j => ?_⟩
  · rw [hsize]
    exact h.maxresend_pos j
  · rw [hsize]
    exact h.maxresend_le j
  · rw [hsize, hsize]
    exact h.maxresend_eq j k
  · rcases eq_or_ne j i with rfl | hj
    · rwa [Function.update_self]
    · rw [Function.update_of_ne hj]
      exact h.numresend_le j

/-- A log that is being filled, and was not overrun. -/
structure LogOk (maxNetEnts : ℕ) (s : LogState) : Prop where
  frames : FramesOk maxNetEnts s.frames
  next_le : s.next ≤ s.size

theorem store_of_lt {s : LogState} (h : LogOk maxNetEnts s) (hnext : s.next < s.size) :
    s.store = some { s with next := s.next + 1 } ∧ LogOk maxNetEnts { s with next := s.next + 1 } :=
  ⟨if_pos hnext, h.frames, hnext⟩

/-- The log of `SVFTE_EmitPacketEntities` has room for what it grants: a log that is full grows. -/
theorem deltaLog_ready (maxNetEnts : ℕ) :
    Logger.Ready (deltaLog maxNetEnts) (LogOk maxNetEnts) fun s => s.next < s.size where
  place s h := by
    have hplace : (deltaLog maxNetEnts).place s = if s.next ≥ s.size then s.grow maxNetEnts else (true, s) := rfl
    have hle : s.size ≤ maxNetEnts := h.frames.maxresend_le _
    have hnext_le := h.next_le
    rw [hplace, LogState.grow]
    split_ifs with hfull hall
    · exact ⟨h, nofun⟩
    · have hnext : s.next < min ((s.next + 1) * 2) maxNetEnts := by omega
      exact ⟨⟨h.frames.expand s.index (Nat.lt_succ_of_le hfull), hnext.le⟩, fun _ => hnext⟩
    · exact ⟨h, fun _ => Nat.lt_of_not_le hfull⟩
  store s h hnext := ⟨_, store_of_lt h hnext⟩

/-- The log of `SV_EmitCSQCUpdate` grants a place as long as it was not overrun. -/
theorem csqcLog_grants (maxNetEnts : ℕ) :
    Logger.Grants (csqcLog maxNetEnts) (LogOk maxNetEnts) fun s => s.size - s.next where
  place s h := if_neg (Nat.not_lt.mpr h.next_le)
  store s n h hroom := by
    obtain ⟨hstore, hok⟩ := store_of_lt h (by omega)
    refine ⟨_, hstore, hok, ?_⟩
    change s.size - (s.next + 1) = n
    omega
  full s h hroom := if_neg (by omega)

/-! ## Calls -/

/-- A call stays inside the log, and what it returns has a property. -/
def Stays {α : Type*} (P : α → Prop) : Except Halt α → Prop
  | .ok a => P a
  | .error e => e ≠ .outside

section Stays

variable {α β : Type} {P : α → Prop} {Q : β → Prop}

theorem Stays.bind {x : Except Halt α} {f : α → Except Halt β} (h : Stays P x) (hf : ∀ a, P a → Stays Q (f a)) :
    Stays Q (x >>= f) := by
  cases x with
  | error e => exact h
  | ok a => exact hf a h

theorem write_stays (w : MsgWriter Unit) (msg : Sizebuf) : Stays (fun _ => True) (write w msg) := by
  rw [write]
  split
  · trivial
  · exact nofun

theorem finish_stays (r : Option α) : Stays (fun _ => True) (finish r) := by
  cases r with
  | none => exact nofun
  | some a => trivial

theorem inside_stays {r : Option α} (h : ∃ a, r = some a ∧ P a) : Stays P (inside r) := by
  obtain ⟨a, rfl, ha⟩ := h
  exact ha

end Stays

namespace Client

/-- The logs of a client are in order. -/
def Ok (c : Client) : Prop := FramesOk c.maxNetEnts c.frames

/-- What `d` keeps of `c` as far as its logs go. -/
structure Same (c d : Client) : Prop where
  frames : d.frames = c.frames
  maxNetEnts : d.maxNetEnts = c.maxNetEnts

theorem Same.refl (c : Client) : Same c c := ⟨rfl, rfl⟩

theorem Same.trans {c d e : Client} (h : Same c d) (h' : Same d e) : Same c e :=
  ⟨h'.frames.trans h.frames, h'.maxNetEnts.trans h.maxNetEnts⟩

theorem Same.ok {c d : Client} (h : Same c d) (hok : c.Ok) : d.Ok := by
  rw [Ok, h.frames, h.maxNetEnts]
  exact hok

theorem foldl_same {α : Type*} {f : Client → α → Client} (hf : ∀ c a, Same c (f c a)) (xs : List α) (c : Client) :
    Same c (xs.foldl f c) := by
  induction xs generalizing c with
  | nil => exact .refl c
  | cons x xs ih => exact (hf c x).trans (ih _)

theorem setPending_same (c : Client) (j : ℕ) (bits : BitVec 32) : Same c (c.setPending j bits) := ⟨rfl, rfl⟩

theorem forgetSent_same (c : Client) : Same c c.forgetSent := by
  refine Same.trans ?_ (setPending_same _ 0 ufSvRemove)
  apply foldl_same
  intro d j
  exact ⟨rfl, rfl⟩

theorem wipeSent_same (c : Client) : Same c c.wipeSent := by
  have hlost : Same c (if c.deltaSequence.slt 0 then c.setPending 0 ufSvRemove else c) := by
    split
    · exact setPending_same c _ _
    · exact .refl c
  have hwipe (d : Client) : Same d (if d.pendingdeltabits 0 &&& ufSvRemove ≠ 0 then d.forgetSent else d) := by
    split
    · exact forgetSent_same d
    · exact .refl d
  exact hlost.trans (hwipe _)

theorem expandSent_same (c : Client) (pack : PacketEntities) : Same c (c.expandSent pack) := by
  rw [expandSent]
  split
  · exact ⟨rfl, rfl⟩
  · exact .refl c

variable (sv : Sv)

theorem dropEntity_same (oldbones : Mem QByte) (c : Client) (j : ℕ) :
    Same c (c.dropEntity sv oldbones j) := by
  rw [dropEntity]
  split_ifs <;> exact ⟨rfl, rfl⟩

theorem dropEntities_same (oldbones : Mem QByte) (c : Client) (j k : ℕ) :
    Same c (c.dropEntities sv oldbones j k) :=
  foldl_same (dropEntity_same sv oldbones) _ c

theorem markEntity_same (oldbones tobones : Mem QByte) (c : Client) (j : ℕ) (n : EntityState) :
    Same c (c.markEntity sv oldbones tobones j n) := ⟨rfl, rfl⟩

theorem markEntities_same (oldbones tobones : Mem QByte) (ns : List EntityState) (j : ℕ) (c : Client) :
    Same c (markEntities sv oldbones tobones ns j c).2 := by
  induction ns generalizing j c with
  | nil => exact .refl c
  | cons n ns ih =>
    refine Same.trans ?_ (ih _ _)
    exact (dropEntities_same sv oldbones c j _).trans (markEntity_same sv _ _ _ _ n)

theorem regenerate_same (c : Client) (pack : PacketEntities) : Same c (c.regenerate sv pack).2 := by
  refine Same.trans ?_ (dropEntities_same sv _ _ _ _)
  refine Same.trans ?_ (markEntities_same sv _ _ _ _ _)
  exact (c.wipeSent_same.trans (expandSent_same _ pack)).trans ⟨rfl, rfl⟩

/-- The log of a call that stays inside it is that of the client. -/
theorem sent_ok {c : Client} {j : ℕ} {s : Sending} {log : LogState} (h : LogOk c.maxNetEnts log) :
    (c.sent j s log).Ok :=
  h.frames.update rfl h.next_le

end Client

theorem sendAngleBases_stays {c : Client} (hok : c.Ok) (msg : Sizebuf) :
    Stays (fun r => r.1.Ok) (sendAngleBases c msg) := by
  rw [sendAngleBases]
  split
  · refine (write_stays _ msg).bind fun _ _ => ?_
    exact hok.update rfl (hok.numresend_le _)
  · exact hok

theorem sendWipe_stays {s : Sending} {log : LogState} (h : LogOk maxNetEnts log) (hnext : log.next < log.size) :
    Stays (fun r => LogOk maxNetEnts r.2) (sendWipe s log) := by
  rw [sendWipe]
  split
  · refine (write_stays _ s.msg).bind fun _ _ => ?_
    exact (inside_stays ⟨_, store_of_lt h hnext⟩).bind fun _ hlog => hlog
  · exact h

theorem sendPacket_stays (sv : Sv) (c : Client) (msg : Sizebuf) {log : LogState} (h : LogOk c.maxNetEnts log)
    (hnext : log.next < log.size) : Stays (fun r => LogOk c.maxNetEnts r.2) (sendPacket sv c msg log) := by
  refine (write_stays _ msg).bind fun msg _ => ?_
  refine (sendWipe_stays h hnext).bind fun r hr => ?_
  obtain ⟨a, t, hrun, ht⟩ := Logger.run_invariant (deltaLog_ready c.maxNetEnts)
    (sendEntities sv c (c.sentents.numEntities - 1) 1 r.1) hr
  refine (inside_stays (P := fun r => LogOk c.maxNetEnts r.2) ⟨_, hrun, ht⟩).bind fun r hr => ?_
  refine (finish_stays r.1).bind fun _ _ => ?_
  exact (write_stays _ _).bind fun _ _ => hr

/-- **`SVFTE_EmitPacketEntities` stays inside the log.** -/
theorem svfteEmitPacketEntities_stays (sv : Sv) {c : Client} (hok : c.Ok) (pack : PacketEntities) (msg : Sizebuf) :
    Stays (fun r => r.2.1.Ok) (svfteEmitPacketEntities sv c pack msg) := by
  rw [svfteEmitPacketEntities]
  split
  · exact hok
  refine (sendAngleBases_stays ((Client.regenerate_same sv c pack).ok hok) msg).bind ?_
  rintro ⟨d, msg⟩ (hd : d.Ok)
  have hlog : LogOk d.maxNetEnts ⟨d.frames, slot d.frameSequence, 0⟩ := ⟨hd, Nat.zero_le _⟩
  change Stays _ (if msg.cursize + 52 ≤ msg.maxsize then _ else _)
  split
  · exact (sendPacket_stays sv d msg hlog (hd.maxresend_pos _)).bind fun t ht => Client.sent_ok ht
  · exact Client.sent_ok hlog

/-- What an update stores, where there is always a place. -/
def csqcEntries {W : Type} (G : Game W) (csqcdebug : Bool) (q : Csqc W) (c : Client) (msg : Sizebuf)
    (svcnumber : ℕ) : ℕ :=
  (csqcUpdate G q c (updateTo c csqcdebug svcnumber) msg).entries

/-- An update has no more to store than there is room for. -/
def UpdateFits {W : Type} (G : Game W) (csqcdebug : Bool) (q : Csqc W) (c : Client) (msg : Sizebuf)
    (svcnumber : ℕ) : Prop :=
  c.csqcactive → c.tracked → c.csqcFrame.numresend + csqcEntries G csqcdebug q c msg svcnumber ≤ c.csqcFrame.maxresend

section Update

variable {W : Type} (G : Game W) (csqcdebug : Bool) (q : Csqc W) {c : Client} (msg : Sizebuf) (svcnumber : ℕ)

/-- **`SV_EmitCSQCUpdate` stays inside the log exactly where its update fits.** -/
theorem svEmitCSQCUpdate_cases (hok : c.Ok) :
    (UpdateFits G csqcdebug q c msg svcnumber ∧
      Stays (fun r => r.2.1.Ok) (svEmitCSQCUpdate G csqcdebug q c msg svcnumber)) ∨
    (¬UpdateFits G csqcdebug q c msg svcnumber ∧
      svEmitCSQCUpdate G csqcdebug q c msg svcnumber = .error .outside) := by
  rw [svEmitCSQCUpdate]
  split
  · rename_i hidle
    exact .inl ⟨fun hactive htracked => by simp [hactive, htracked] at hidle, hok⟩
  rename_i hbusy
  rw [Bool.not_eq_true', Bool.not_eq_true', not_or, Bool.not_eq_false, Bool.not_eq_false] at hbusy
  have hlog : LogOk c.maxNetEnts ⟨c.frames, slot c.outgoingSequence, c.csqcFrame.numresend⟩ :=
    ⟨hok, hok.numresend_le _⟩
  have hnum : c.csqcFrame.numresend ≤ c.csqcFrame.maxresend := hok.numresend_le _
  rcases Logger.run_cases (csqcLog_grants c.maxNetEnts)
    (csqcUpdate G q c (updateTo c csqcdebug svcnumber) msg) hlog with ⟨hroom, _, _, hrun, ht⟩ | ⟨hroom, hrun⟩
  · refine .inl ⟨fun _ _ => ?_, (inside_stays (P := fun r => LogOk c.maxNetEnts r.2) ⟨_, hrun, ht⟩).bind ?_⟩
    · change csqcEntries G csqcdebug q c msg svcnumber ≤ c.csqcFrame.maxresend - c.csqcFrame.numresend at hroom
      omega
    · rintro ⟨r, log⟩ hr
      refine (finish_stays r).bind fun _ _ => ?_
      exact (write_stays _ _).bind fun _ _ => hr.frames.update rfl hr.next_le
  · refine .inr ⟨fun hfits => ?_, ?_⟩
    · have hle := hfits hbusy.1 hbusy.2
      change c.csqcFrame.maxresend - c.csqcFrame.numresend < csqcEntries G csqcdebug q c msg svcnumber at hroom
      omega
    · rw [hrun]
      rfl

end Update

/-! ## Runs -/

/-- Anything else that happens to a client and keeps its logs in order: a packet is lost, another
extension has the logs set up again. -/
structure Change where
  act : Client → Client
  ok (c : Client) (h : c.Ok) : (act c).Ok

/-- What happens to a client: the two calls, with any packet, message and game, and the rest. -/
inductive Op (W : Type)
  | delta (sv : Sv) (pack : PacketEntities) (msg : Sizebuf)
  | csqc (csqcdebug : Bool) (q : Csqc W) (msg : Sizebuf) (svcnumber : ℕ)
  | change (e : Change)

section Runs

variable {W : Type} (G : Game W)

namespace Op

def exec : Op W → Client → Except Halt Client
  | delta sv pack msg, c => (fun r => r.2.1) <$> svfteEmitPacketEntities sv c pack msg
  | csqc csqcdebug q msg svcnumber, c => (fun r => r.2.1) <$> svEmitCSQCUpdate G csqcdebug q c msg svcnumber
  | change e, c => .ok (e.act c)

/-- What the operation stores fits in the log. -/
def Fits : Op W → Client → Prop
  | csqc csqcdebug q msg svcnumber, c => UpdateFits G csqcdebug q c msg svcnumber
  | _, _ => True

theorem exec_cases (op : Op W) {c : Client} (hok : c.Ok) :
    (op.Fits G c ∧ Stays Client.Ok (op.exec G c)) ∨ (¬op.Fits G c ∧ op.exec G c = .error .outside) := by
  cases op with
  | delta sv pack msg => exact .inl ⟨trivial, (svfteEmitPacketEntities_stays sv hok pack msg).bind fun _ h => h⟩
  | csqc csqcdebug q msg svcnumber =>
    refine (svEmitCSQCUpdate_cases G csqcdebug q msg svcnumber hok).imp ?_ ?_
    · exact fun h => ⟨h.1, h.2.bind fun _ hr => hr⟩
    · intro h
      refine ⟨h.1, ?_⟩
      rw [exec, h.2]
      rfl
  | change e => exact .inl ⟨trivial, e.ok c hok⟩

end Op

/-- Operations one after the other. -/
def run : List (Op W) → Client → Except Halt Client
  | [], c => .ok c
  | op :: ops, c => op.exec G c >>= run ops

/-- Every operation that is reached fits. -/
def AllFit : List (Op W) → Client → Prop
  | [], _ => True
  | op :: ops, c => op.Fits G c ∧ ∀ d, op.exec G c = .ok d → AllFit ops d

/-- A client whose logs are in order stays inside them exactly as long as its updates fit. -/
theorem run_ne_outside_iff (ops : List (Op W)) {c : Client} (hok : c.Ok) :
    run G ops c ≠ .error .outside ↔ AllFit G ops c := by
  induction ops generalizing c with
  | nil => exact iff_of_true nofun trivial
  | cons op ops ih =>
    rw [run, AllFit]
    rcases op.exec_cases G hok with ⟨hfits, hstays⟩ | ⟨hfits, hout⟩
    · rw [and_iff_right hfits]
      cases hexec : op.exec G c with
      | error e =>
        rw [hexec] at hstays
        refine iff_of_true (fun h => hstays ?_) nofun
        exact Except.error.inj h
      | ok d =>
        rw [hexec] at hstays
        refine (ih hstays).trans ⟨fun h e he => ?_, fun h => h d rfl⟩
        rwa [← Except.ok.inj he]
    · rw [hout]
      exact iff_of_false (fun h => h rfl) fun h => hfits h.1

/-- **Both calls store inside the log, from the time when the client connects, exactly as long as no
update of `SV_EmitCSQCUpdate` has more to store than the log has room for.** -/
theorem emit_inside (ops : List (Op W)) {c : Client} {maxpacketentities : ℕ} (hmax : 0 < maxpacketentities)
    (hents : 0 < c.maxNetEnts) (hframes : c.frames = setupFrames maxpacketentities c.maxNetEnts) :
    run G ops c ≠ .error .outside ↔ AllFit G ops c := by
  refine run_ne_outside_iff G ops ?_
  rw [Client.Ok, hframes]
  exact setupFrames_ok hmax hents

end Runs

/-- A client that has just connected, with 64 entities to a packet and 512 in all. -/
def newClient : Client where
  isNqClient := false
  csqcactive := true
  tracked := true
  pendingdeltabits := Function.update (fun _ => 0) 0 ufSvRemove
  pendingcsqcbits _ := 0
  maxNetEnts := 512
  deltaSequence := -1
  fteprotocolextensions2 := pext2Replacementdeltas
  ezprotocolextensions1 := 0
  lastSequence := 0
  outgoingSequence := 0
  outgoingUnreliable := 0
  incomingSequence := 0
  sentents := ⟨fun _ => zeroEntity, 0, ⟨fun _ => 0, 0⟩⟩
  nextdeltaindex := 0
  edict := some 1
  specTrack := 0
  seats := []
  frames := setupFrames 64 512

/-- A game whose entities all have an empty message for the client. -/
def plainGame : Game Unit where
  noremove _ _ := false
  sendEntity _ _ _ _ pending := ((), pending, true, [])

/-- An update of the entities 1 to `n`, into a message of 1450 bytes. -/
def updateOf (n : ℕ) : Op Unit := .csqc false ⟨(), List.range' 1 n, n + 1⟩ (Sizebuf.bufferOf [] 1450) 76

theorem emit_inside_three : run plainGame [updateOf 3] newClient ≠ .error .outside :=
  (emit_inside plainGame [updateOf 3] (show 0 < 64 by decide) (by decide) rfl).mpr
    ⟨fun _ _ => by decide +kernel, fun _ _ => trivial⟩

/-- Whether a call stored outside the log. -/
def isOutside {α : Type} : Except Halt α → Bool
  | .error .outside => true
  | _ => false

theorem eq_of_isOutside {α : Type} {x : Except Halt α} (h : isOutside x = true) : x = .error .outside := by
  cases x with
  | ok a => exact nomatch h
  | error e =>
    cases e with
    | outside => rfl
    | error => exact nomatch h

/-- An update of 257 entities is stored in a log for 256. -/
theorem emit_outside : newClient.frames = setupFrames 64 newClient.maxNetEnts ∧
    (newClient.frames (slot newClient.outgoingSequence)).maxresend = 256 ∧
    run plainGame [updateOf 257] newClient = .error .outside :=
  ⟨rfl, rfl, eq_of_isOutside (by decide +kernel)⟩

end ResendLog

end FteQuake
