import FteQuake.Lib.PacketWalk
import Mathlib.Data.BitVec
import Mathlib.Data.List.GetD
import Mathlib.Tactic.Linarith

/-!
# MVD streams

`MVDWrite_Begin` and `SV_WriteMVDMessage` of `sv_mvd.c`, which write the packets of an MVD, and
`SV_EarlyParse`, `Net_ReadStream` and the packet loop of `QTV_Run` of `fteqtv/source.c`, which find them
again in what arrives: the first to forward whole packets at once, the last to parse a packet when its
time has come. Times are milliseconds in an `unsigned int`.

`earlyLoop_spec` and `packetLoop_spec` say that on a stream in which no length is negative both come to
an end inside the buffer, and `Stands` what then has been forwarded and parsed.
-/

namespace FteQuake

open List Option

namespace MvdStream

/-- `unsigned char`. -/
abbrev Byte := BitVec 8

/-! ## Packet types -/

/-- `dem_read`. -/
def demRead : ℕ := 1
/-- `dem_set`. -/
def demSet : ℕ := 2
/-- `dem_multiple`. -/
def demMultiple : ℕ := 3
/-- `dem_single`. -/
def demSingle : ℕ := 4
/-- `dem_stats`. -/
def demStats : ℕ := 5
/-- `dem_all`. -/
def demAll : ℕ := 6

/-- `c & dem_mask`. -/
def demType (c : Byte) : ℕ := (c &&& 7).toNat

/-- `MAX_MSGLEN` of fteqtv. -/
def maxMsglen : ℤ := 8192
/-- `MAX_PROXY_BUFFER`. -/
def maxProxyBuffer : ℕ := 131072
/-- `PREFERRED_PROXY_BUFFER`. -/
def preferredProxyBuffer : ℕ := 4096
/-- `MAX_OVERALLMSGLEN`, the size of `demomsgbuf`. -/
def demomsgbufSize : ℕ := 65536

/-! ## The writer -/

/-- A message for `SV_WriteMVDMessage`: `dem_single` and `dem_stats` are to a player, `dem_multiple` to
a mask of players. -/
structure Msg where
  type : ℕ
  target : BitVec 32
  data : List Byte
  deriving DecidableEq

/-- `demo.lasttype` and `demo.lastto`, and `demomsg` with its type and target. -/
structure Writer where
  lasttype : ℕ
  lastto : BitVec 32
  demomsg : Msg
  deriving DecidableEq

/-- `DemoWrite` of an `int`. -/
def writeLong (x : BitVec 32) : List Byte :=
  [x.setWidth 8, (x >>> 8).setWidth 8, (x >>> 16).setWidth 8, (x >>> 24).setWidth 8]

/-- The type of a packet and its target, in full; `none` for a bad type. -/
def writeType (type : ℕ) (target : BitVec 32) : Option (List Byte) :=
  if type = demAll then some [BitVec.ofNat 8 demAll]
  else if type = demMultiple then some (BitVec.ofNat 8 demMultiple :: writeLong target)
  else if type = demSingle ∨ type = demStats then some [BitVec.ofNat 8 type + (target.setWidth 8 <<< 3)]
  else none

/-- `SV_WriteMVDMessage`, when `msec` has been found. -/
def writeMVDMessage (w : Writer) (msec : Byte) (m : Msg) : Option (Writer × List Byte) :=
  let type := if w.lasttype ≠ m.type ∨ w.lastto ≠ m.target then writeType m.type m.target
    else some [BitVec.ofNat 8 demRead]
  type.map fun type =>
    ({ w with lasttype := m.type, lastto := m.target },
      msec :: type ++ writeLong (BitVec.ofNat 32 m.data.length) ++ m.data)

/-- Whether `MVDWrite_Begin` writes `demomsg` first. -/
def Writer.mustFlush (w : Writer) (type : ℕ) (target : BitVec 32) (size : ℕ) : Prop :=
  w.demomsg.data ≠ [] ∧
    (w.demomsg.type ≠ type ∨ w.demomsg.target ≠ target ∨ demomsgbufSize < w.demomsg.data.length + size)

instance (w : Writer) (type : ℕ) (target : BitVec 32) (size : ℕ) : Decidable (w.mustFlush type target size) :=
  inferInstanceAs (Decidable (_ ∧ _))

/-- `demomsg` after `MVDWrite_Begin`, and what its caller puts behind what is there. -/
def Writer.putDemomsg (w : Writer) (flushed : Bool) (type : ℕ) (target : BitVec 32) (content : List Byte) :
    Writer :=
  { w with demomsg := ⟨type, target, (if flushed then [] else w.demomsg.data) ++ content⟩ }

/-! ## The proxy -/

/-- A call of `ParseMessage`: the bytes, `to` and `mask`. -/
structure Event where
  data : List Byte
  target : ℕ
  mask : BitVec 32
  deriving DecidableEq

/-- Of `sv_t`: the buffer up to `buffersize`, and the fields that say how far it has been forwarded and
parsed. Beside it, the bytes of the source that have not been read, the pieces passed to
`SV_ForwardStream`, and the calls of `ParseMessage` from the packet loop and from `SV_EarlyParse`. -/
structure Qtv where
  buffer : List Byte
  forwardpoint : ℤ
  parsetime : ℕ
  nextpackettime : ℕ
  sourcefile : Bool
  isDemo : Bool
  isOpen : Bool
  pending : List Byte
  forwarded : List (List Byte)
  parsed : List Event
  early : List Event

/-- `lateforward`, `tooslowdelay`, and whether `pexte` has `PEXTE_HIDDENMESSAGES` after these messages. -/
structure Config where
  lateforward : Bool
  tooslowdelay : ℕ
  hidden : List Event → Bool

/-- A sum of `unsigned int`s. -/
def addTime (a b : ℕ) : ℕ := (a + b) % 2 ^ 32

/-- A byte of a buffer, at an index of any sign; `none` where there is no byte. -/
def byteAt (buf : List Byte) (i : ℤ) : Option Byte := if 0 ≤ i then buf[i.toNat]? else none

/-- Four bytes, low byte first. -/
def longAt (buf : List Byte) (i : ℤ) : Option (BitVec 32) :=
  match byteAt buf i, byteAt buf (i + 1), byteAt buf (i + 2), byteAt buf (i + 3) with
  | some a, some b, some c, some d =>
    some (a.setWidth 32 + (b.setWidth 32 <<< 8) + (c.setWidth 32 <<< 16) + (d.setWidth 32 <<< 24))
  | _, _, _, _ => none

/-- `n` bytes of a buffer. -/
def slice (buf : List Byte) (i : ℤ) (n : ℕ) : Option (List Byte) :=
  if 0 ≤ i ∧ i + n ≤ buf.length then some ((buf.drop i.toNat).take n) else none

/-- `lengthofs`, for the types that have one. -/
def lengthofs (type : ℕ) : ℕ := if type = demMultiple then 6 else 2

/-- What a function does that may leave its buffer or not return. -/
inductive Outcome (α : Type)
  | fault
  | outOfFuel
  | done (a : α)

/-- The length of the packet at `pos`, as `SV_EarlyParse` finds it; the inner `none` where it is not
there yet. -/
def earlyLength (buf : List Byte) (pos : ℤ) (type : Byte) : Option (Option ℤ) :=
  if demType type = demSet then some (some 10)
  else if (lengthofs (demType type) : ℤ) + 4 > buf.length - pos then some none
  else
    (longAt buf (pos + lengthofs (demType type))).map fun length =>
      some (length + BitVec.ofNat 32 (lengthofs (demType type) + 4)).toInt

/-- The bytes of a packet of `length` bytes, behind its header. `ParseMessage` keeps their number in an
`unsigned int`, so that it leaves the buffer when the packet is shorter than its header. -/
def packetData (buf : List Byte) (pos length : ℤ) (type : Byte) : Option (List Byte) :=
  if length < lengthofs (demType type) + 4 then none
  else slice buf (pos + lengthofs (demType type) + 4) (length - (lengthofs (demType type) + 4)).toNat

/-- The loop of `SV_EarlyParse`, for so many rounds: `pos` is where `buffer` has come to, which is also
what is `available`. -/
def earlyLoop (isDemo : Bool) (buf : List Byte) : ℕ → ℤ → List Event → Outcome (ℤ × List Event)
  | 0, _, _ => .outOfFuel
  | fuel + 1, pos, early =>
    if (buf.length : ℤ) - pos < 2 then .done (pos, early)
    else
      match byteAt buf (pos + 1) with
      | none => .fault
      | some type =>
        match earlyLength buf pos type with
        | none => .fault
        | some none => .done (pos, early)
        | some (some length) =>
          if (buf.length : ℤ) - pos < length then .done (pos, early)
          else if demType type = demAll ∧ type &&& ~~~7 ≠ 0 ∧ isDemo = false then
            match packetData buf pos length type with
            | none => .fault
            | some data =>
              earlyLoop isDemo buf fuel (pos + length) (early ++ [⟨data, type.toNat, BitVec.allOnes 32⟩])
          else earlyLoop isDemo buf fuel (pos + length) early

/-- `SV_EarlyParse` from `pos` on. In more rounds than there are places it would come to a place
again. -/
def earlyParse (isDemo : Bool) (buf : List Byte) (pos : ℤ) : Outcome (ℤ × List Event) :=
  earlyLoop isDemo buf (buf.length + 3) pos []

/-- The call of `ParseMessage` in the packet loop for the packet of `length` bytes at the front, if there
is one; the outer `none` where bytes are missing. -/
def packetEvent (hidden isDemo : Bool) (buf : List Byte) (type : Byte) (length : ℤ) :
    Option (Option Event) :=
  (packetData buf 0 length type).bind fun data =>
    if demType type = demMultiple then
      (longAt buf 2).map fun target =>
        if hidden ∧ target = 0 then none else some ⟨data, demMultiple, target⟩
    else if demType type = demSingle ∨ demType type = demStats then
      some (some ⟨data, demType type, (1 : BitVec 32) <<< (type >>> 3).toNat⟩)
    else if demType type = demAll ∧ type &&& ~~~7 ≠ 0 ∧ isDemo = false then some none
    else if demType type = demAll ∨ demType type = demRead then
      some (some ⟨data, type.toNat, BitVec.allOnes 32⟩)
    else some none

namespace Qtv

/-- `SV_ForwardStream`. -/
def forwardStream (q : Qtv) (piece : List Byte) : Qtv := { q with forwarded := q.forwarded ++ [piece] }

/-- What `Net_ReadStream` does about bytes that were read. -/
def forwardEarly (cfg : Config) (q : Qtv) : Outcome Qtv :=
  if cfg.lateforward then .done q
  else
    match earlyParse q.isDemo q.buffer q.forwardpoint with
    | .fault => .fault
    | .outOfFuel => .outOfFuel
    | .done (pos, early) =>
      let q := { q with early := q.early ++ early }
      if pos - q.forwardpoint > 0 then
        match slice q.buffer q.forwardpoint (pos - q.forwardpoint).toNat with
        | none => .fault
        | some piece => .done { q.forwardStream piece with forwardpoint := pos }
      else .done q

/-- `Net_ReadStream`. From a socket, `arrived` bytes can be received; a file ends at its end. -/
def netReadStream (cfg : Config) (q : Qtv) (arrived : ℕ) : Outcome Qtv :=
  let maxreadable := maxProxyBuffer - q.buffer.length
  if q.isOpen = false ∨ maxreadable = 0 then .done q
  else if q.sourcefile then
    let maxreadable := min maxreadable (preferredProxyBuffer - q.buffer.length)
    if maxreadable = 0 then .done q
    else if q.pending = [] then .done { q with isOpen := false, sourcefile := false }
    else
      forwardEarly cfg { q with
        buffer := q.buffer ++ q.pending.take maxreadable
        pending := q.pending.drop maxreadable }
  else
    let read := min arrived maxreadable
    if read = 0 ∨ q.pending = [] then .done q
    else
      forwardEarly cfg { q with
        buffer := q.buffer ++ q.pending.take read
        pending := q.pending.drop read }

/-- The end of a packet in the loop: it is forwarded if that was not done, and removed. -/
def removePacket (q : Qtv) (length : ℤ) : Option Qtv :=
  let forwarded :=
    if q.forwardpoint < length then
      (slice q.buffer 0 length.toNat).map fun piece =>
        { q.forwardStream piece with forwardpoint := q.forwardpoint + length }
    else some q
  forwarded.bind fun q =>
    (slice q.buffer length (q.buffer.length - length).toNat).map fun rest =>
      { q with buffer := rest, forwardpoint := q.forwardpoint - length }

/-- `packettime`. -/
def packettime (parsespeed : ℕ) (c : Byte) : ℕ :=
  if parsespeed > 0 then 1000 * c.toNat / parsespeed else c.toNat

/-- A round of the packet loop: it goes on, or ends. -/
inductive Pass
  | fault
  | outOfFuel
  | go (q : Qtv)
  | stop (q : Qtv)

/-- The rest of a round, when the packet is whole. -/
def playPacket (cfg : Config) (q : Qtv) (curtime parsespeed : ℕ) (time type : Byte) (length : ℤ) :
    Pass :=
  let ptime := packettime parsespeed time
  let q := { q with nextpackettime := addTime q.parsetime ptime }
  if q.nextpackettime < curtime then
    match packetEvent (cfg.hidden q.parsed) q.isDemo q.buffer type length with
    | none => .fault
    | some event =>
      match { q with parsed := q.parsed ++ event.toList }.removePacket length with
      | none => .fault
      | some q =>
        match if q.sourcefile then q.netReadStream cfg 0 else .done q with
        | .fault => .fault
        | .outOfFuel => .outOfFuel
        | .done q => .go { q with parsetime := addTime q.parsetime ptime }
  else .stop q

/-- A round of the packet loop of `QTV_Run`. -/
def pass (cfg : Config) (q : Qtv) (curtime parsespeed : ℕ) : Pass :=
  let wait := { q with parsetime := addTime curtime cfg.tooslowdelay }
  match q.buffer with
  | time :: type :: _ =>
    if demType type = demSet then
      if q.buffer.length < 10 then .go wait
      else
        match { q with parsetime := addTime q.parsetime time.toNat }.removePacket 10 with
        | none => .fault
        | some q => .go q
    else if q.buffer.length < lengthofs (demType type) + 4 then .stop wait
    else
      match longAt q.buffer (lengthofs (demType type)) with
      | none => .fault
      | some length =>
        if length.toInt > maxMsglen then
          .stop { q with buffer := [], forwardpoint := 0, isOpen := false, sourcefile := false }
        else if length.toInt + lengthofs (demType type) + 4 > q.buffer.length then .stop wait
        else q.playPacket cfg curtime parsespeed time type (length.toInt + lengthofs (demType type) + 4)
  | _ => .stop (if q.parsetime < curtime then wait else q)

/-- The packet loop of `QTV_Run`, for so many rounds. -/
def packetLoop (cfg : Config) (curtime parsespeed : ℕ) : ℕ → Qtv → Outcome Qtv
  | 0, _ => .outOfFuel
  | fuel + 1, q =>
    if curtime < q.parsetime then .done q
    else
      match q.pass cfg curtime parsespeed with
      | .fault => .fault
      | .outOfFuel => .outOfFuel
      | .go q => packetLoop cfg curtime parsespeed fuel q
      | .stop q => .done q

end Qtv

/-! ## Packets of a stream -/

theorem byteAt_natCast (buf : List Byte) (i : ℕ) : byteAt buf i = buf[i]? := by
  simp [byteAt]

variable {l : BitVec 32} {S p q : List Byte} {a : ℕ} {i : ℤ}

theorem byteAt_mono (h : p <+: q) {b : Byte} (hb : byteAt p i = some b) :
    byteAt q i = some b := by
  obtain ⟨r, rfl⟩ := h
  unfold byteAt at hb ⊢
  split at hb
  · rw [if_pos ‹_›, List.getElem?_append_left (List.getElem?_eq_some_iff.mp hb).1, hb]
  · simp at hb

theorem longAt_eq_some {buf : List Byte} :
    longAt buf i = some l ↔ ∃ a b c d, byteAt buf i = some a ∧ byteAt buf (i + 1) = some b ∧
      byteAt buf (i + 2) = some c ∧ byteAt buf (i + 3) = some d ∧
      a.setWidth 32 + (b.setWidth 32 <<< 8) + (c.setWidth 32 <<< 16) + (d.setWidth 32 <<< 24) = l := by
  unfold longAt
  split
  · rename_i h₀ h₁ h₂ h₃
    simp [h₀, h₁, h₂, h₃]
  · rename_i h
    refine iff_of_false (by simp) ?_
    rintro ⟨a, b, c, d, ha, hb, hc, hd, -⟩
    exact h a b c d ha hb hc hd

theorem longAt_mono (h : p <+: q) (hl : longAt p i = some l) :
    longAt q i = some l := by
  obtain ⟨a, b, c, d, ha, hb, hc, hd, rfl⟩ := longAt_eq_some.mp hl
  exact longAt_eq_some.mpr ⟨a, b, c, d, byteAt_mono h ha, byteAt_mono h hb, byteAt_mono h hc, byteAt_mono h hd, rfl⟩

theorem byteAt_drop (buf : List Byte) (p : ℕ) (hi : 0 ≤ i) :
    byteAt (buf.drop p) i = byteAt buf (p + i) := by
  obtain ⟨k, rfl⟩ := Int.eq_ofNat_of_zero_le hi
  rw [show (p : ℤ) + (k : ℕ) = ((p + k : ℕ) : ℤ) by push_cast; rfl]
  rw [byteAt_natCast, byteAt_natCast, List.getElem?_drop]

theorem longAt_drop (buf : List Byte) (p : ℕ) (hi : 0 ≤ i) :
    longAt (buf.drop p) i = longAt buf (p + i) := by
  unfold longAt
  rw [byteAt_drop buf p hi, byteAt_drop buf p (by omega), byteAt_drop buf p (by omega),
    byteAt_drop buf p (by omega)]
  simp only [add_assoc]

theorem longAt_isSome {buf : List Byte} {i : ℕ} (h : i + 4 ≤ buf.length) : ∃ l, longAt buf i = some l := by
  have hbyte : ∀ k : ℕ, k < 4 → ∃ b, byteAt buf ((i : ℤ) + k) = some b := by
    intro k hk
    rw [show (i : ℤ) + k = ((i + k : ℕ) : ℤ) by push_cast; rfl, byteAt_natCast]
    exact ⟨_, List.getElem?_eq_getElem (by omega)⟩
  obtain ⟨a, ha⟩ := hbyte 0 (by decide)
  obtain ⟨b, hb⟩ := hbyte 1 (by decide)
  obtain ⟨c, hc⟩ := hbyte 2 (by decide)
  obtain ⟨d, hd⟩ := hbyte 3 (by decide)
  exact ⟨_, longAt_eq_some.mpr ⟨a, b, c, d, by simpa using ha, hb, hc, hd, rfl⟩⟩

theorem lengthofs_le (type : ℕ) : lengthofs type ≤ 6 := by
  unfold lengthofs
  split <;> omega

/-- The length in the header of the packet at the front, where it has one. -/
def lengthField (p : List Byte) : Option (BitVec 32) :=
  (byteAt p 1).bind fun type => if demType type = demSet then none else longAt p (lengthofs (demType type))

/-- The size of the packet at the front, if its length is not negative. -/
def packetSize (p : List Byte) : Option ℕ :=
  (byteAt p 1).bind fun type =>
    if demType type = demSet then some 10
    else
      (longAt p (lengthofs (demType type))).bind fun length =>
        if length.toNat < 2 ^ 31 then some (length.toNat + lengthofs (demType type) + 4) else none

theorem packetSize_mono {n : ℕ} (h : p <+: q) (hn : packetSize p = some n) :
    packetSize q = some n := by
  unfold packetSize at hn ⊢
  obtain ⟨type, htype, hn⟩ := bind_eq_some_iff.mp hn
  rw [byteAt_mono h htype, bind_some]
  split at hn
  · rw [if_pos ‹_›, hn]
  · obtain ⟨length, hlength, hn⟩ := bind_eq_some_iff.mp hn
    rw [if_neg ‹_›, longAt_mono h hlength, bind_some, hn]

theorem packetSize_pos {n : ℕ} (hn : packetSize p = some n) : 0 < n := by
  unfold packetSize at hn
  obtain ⟨type, -, hn⟩ := bind_eq_some_iff.mp hn
  split at hn
  · cases hn
    decide
  · obtain ⟨length, -, hn⟩ := bind_eq_some_iff.mp hn
    split at hn
    · cases hn
      exact Nat.succ_pos _
    · cases hn

/-- The packets of an MVD. -/
def framing : PacketWalk.Framing Byte where
  size := packetSize
  pos := packetSize_pos
  mono := packetSize_mono

/-- A whole packet of an MVD. -/
abbrev Packet (S : List Byte) : ℕ → ℕ → Prop := PacketWalk.Packet framing S

/-- Whole packets of an MVD. -/
abbrev Walk (S : List Byte) : ℕ → ℕ → Prop := PacketWalk.Walk framing S

/-- No packet that is met has a length that is negative, or becomes so with the header. -/
def Clean (S : List Byte) : Prop :=
  ∀ a, Walk S 0 a → ∀ l, lengthField (S.drop a) = some l → l.toNat + 10 < 2 ^ 31

theorem lengthField_mono (h : p <+: q) (hl : lengthField p = some l) :
    lengthField q = some l := by
  unfold lengthField at hl ⊢
  obtain ⟨type, htype, hl⟩ := bind_eq_some_iff.mp hl
  rw [byteAt_mono h htype, bind_some]
  split at hl
  · cases hl
  · rw [if_neg ‹_›, longAt_mono h hl]

theorem Clean.of_isPrefix {T : List Byte} (h : Clean T) (hST : S <+: T) : Clean S := by
  intro a ha l hl
  have hle : a ≤ S.length := ha.le_length (Nat.zero_le _)
  obtain ⟨r, rfl⟩ := hST
  refine h a (ha.append r) l (lengthField_mono ?_ hl)
  rw [drop_append_of_le_length hle]
  exact prefix_append ..

/-- What a parser that plays the packets of `S` up to a place has passed on: each packet gives what
`parse` says about it, after what was there before. -/
inductive Parsed (parse : List Event → List Byte → Option Event) (S : List Byte) : ℕ → List Event → Prop
  | start : Parsed parse S 0 []
  | packet {a n : ℕ} {events : List Event} : Parsed parse S a events → packetSize (S.drop a) = some n →
      a + n ≤ S.length → Parsed parse S (a + n) (events ++ (parse events ((S.drop a).take n)).toList)

/-- What the packet loop does about a whole packet. -/
def loopEvent (cfg : Config) (isDemo : Bool) (events : List Event) (packet : List Byte) : Option Event :=
  (byteAt packet 1).bind fun type =>
    if demType type = demSet then none
    else (packetEvent (cfg.hidden events) isDemo packet type packet.length).join

/-- What `SV_EarlyParse` does about a whole packet. -/
def earlyEvent (isDemo : Bool) (packet : List Byte) : Option Event :=
  (byteAt packet 1).bind fun type =>
    if demType type = demAll ∧ type &&& ~~~7 ≠ 0 ∧ isDemo = false then
      (packetData packet 0 packet.length type).map fun data => ⟨data, type.toNat, BitVec.allOnes 32⟩
    else none

/-- The pieces in which a stream has been forwarded up to a place, each of whole packets. -/
inductive Forwarded (S : List Byte) : ℕ → List (List Byte) → Prop
  | start : Forwarded S 0 []
  | piece {a b : ℕ} {pieces : List (List Byte)} : Forwarded S a pieces → Walk S a b →
      Forwarded S b (pieces ++ [(S.drop a).take (b - a)])

theorem Forwarded.walk {pieces : List (List Byte)} (h : Forwarded S a pieces) :
    Walk S 0 a := by
  induction h with
  | start => exact PacketWalk.Walk.refl 0
  | piece _ hw ih => exact ih.trans hw

theorem Forwarded.flatten {S : List Byte} {a : ℕ} {pieces : List (List Byte)} (h : Forwarded S a pieces) :
    pieces.flatten = S.take a := by
  induction h with
  | start => rfl
  | @piece a b pieces _ hw ih =>
    rw [flatten_append, ih, flatten_singleton, ← take_add, Nat.add_sub_cancel' hw.le]

theorem Forwarded.append {S : List Byte} {a : ℕ} {pieces : List (List Byte)} (h : Forwarded S a pieces)
    (T : List Byte) : Forwarded (S ++ T) a pieces := by
  induction h with
  | start => exact .start
  | @piece a b pieces hf hw ih =>
    have hb := hw.le_length (hf.walk.le_length (Nat.zero_le _))
    have ha := hw.le
    have := ih.piece (hw.append T)
    rwa [drop_append_of_le_length (by omega), take_append_of_le_length (by
      rw [length_drop]
      omega)] at this

theorem Parsed.walk {parse : List Event → List Byte → Option Event}
    {events : List Event} (h : Parsed parse S a events) : Walk S 0 a := by
  induction h with
  | start => exact PacketWalk.Walk.refl 0
  | packet _ hn hle ih => exact ih.trans (PacketWalk.Walk.of ⟨_, hn, rfl, hle⟩)

theorem Parsed.append {parse : List Event → List Byte → Option Event}
    {events : List Event} (h : Parsed parse S a events) (T : List Byte) :
    Parsed parse (S ++ T) a events := by
  induction h with
  | start => exact .start
  | @packet a n events _ hn hle ih =>
    have hdrop : (S ++ T).drop a = S.drop a ++ T := drop_append_of_le_length (by omega)
    have := ih.packet (n := n) (packetSize_mono (hdrop ▸ prefix_append ..) hn) (by
      rw [length_append]
      omega)
    rwa [hdrop, take_append_of_le_length (by
      rw [length_drop]
      omega)] at this

/-! ## One packet, in a buffer

`buf` is what a parser has of a stream `S` from a place `c` on. -/

section Buffer

variable {S buf : List Byte} {c p n : ℕ} {type : Byte}

theorem drop_isPrefix (hbuf : buf <+: S.drop c) (p : ℕ) : buf.drop p <+: S.drop (c + p) := by
  rw [← drop_drop]
  exact hbuf.drop p

theorem take_of_isPrefix (hbuf : buf <+: S.drop c) (h : p + n ≤ buf.length) :
    (S.drop (c + p)).take n = (buf.drop p).take n := by
  obtain ⟨r, hr⟩ := drop_isPrefix hbuf p
  rw [← hr, take_append_of_le_length]
  rw [length_drop]
  omega

theorem packet_of_isPrefix (hbuf : buf <+: S.drop c) (hn : packetSize (buf.drop p) = some n)
    (h : p + n ≤ buf.length) : Packet S (c + p) (c + p + n) := by
  refine ⟨n, packetSize_mono (drop_isPrefix hbuf p) hn, rfl, ?_⟩
  have := hbuf.length_le
  rw [length_drop] at this
  have hpos := packetSize_pos hn
  omega

/-- The header of a packet that a parser meets. -/
theorem lengthField_lt (hbuf : buf <+: S.drop c) (hclean : Clean S) (hwalk : Walk S 0 (c + p))
    {l : BitVec 32} (hl : lengthField (buf.drop p) = some l) : l.toNat + 10 < 2 ^ 31 :=
  hclean _ hwalk l (lengthField_mono (drop_isPrefix hbuf p) hl)

theorem byteAt_one (htype : byteAt buf (p + 1) = some type) : byteAt (buf.drop p) 1 = some type := by
  rw [byteAt_drop buf p (by decide), htype]

theorem packetSize_demSet (htype : byteAt buf (p + 1) = some type) (h : demType type = demSet) :
    packetSize (buf.drop p) = some 10 := by
  rw [packetSize, byteAt_one htype, bind_some, if_pos h]

/-- A packet with a length field, when its length is there. -/
theorem packetSize_long {l : BitVec 32} (htype : byteAt buf (p + 1) = some type) (h : demType type ≠ demSet)
    (hl : longAt buf (p + lengthofs (demType type)) = some l)
    (hlt : ∀ l, lengthField (buf.drop p) = some l → l.toNat + 10 < 2 ^ 31) :
    l.toNat + 10 < 2 ^ 31 ∧
      packetSize (buf.drop p) = some (l.toNat + lengthofs (demType type) + 4) := by
  rw [← longAt_drop buf p (by omega)] at hl
  have hfield : l.toNat + 10 < 2 ^ 31 := by
    refine hlt l ?_
    rw [lengthField, byteAt_one htype, bind_some, if_neg h, hl]
  refine ⟨hfield, ?_⟩
  rw [packetSize, byteAt_one htype, bind_some, if_neg h, hl, bind_some, if_pos (by omega)]

/-- A packet whose length is not there yet. -/
theorem packetSize_short (htype : byteAt buf (p + 1) = some type) (h : demType type ≠ demSet)
    (hshort : buf.length < p + (lengthofs (demType type) + 4)) : packetSize (buf.drop p) = none := by
  rw [packetSize, byteAt_one htype, bind_some, if_neg h, bind_eq_none_iff]
  intro l hl
  obtain ⟨-, -, -, d, -, -, -, hd, -⟩ := longAt_eq_some.mp hl
  rw [byteAt_drop buf p (by omega), show (p : ℤ) + ((lengthofs (demType type) : ℤ) + 3)
    = ((p + lengthofs (demType type) + 3 : ℕ) : ℤ) by omega, byteAt_natCast] at hd
  have := (List.getElem?_eq_some_iff.mp hd).1
  omega

theorem packetData_eq (h : p + n ≤ buf.length) (hn : lengthofs (demType type) + 4 ≤ n) :
    packetData buf p n type = some (((buf.drop p).take n).drop (lengthofs (demType type) + 4)) := by
  have hstart : (p : ℤ) + lengthofs (demType type) + 4 = ((p + (lengthofs (demType type) + 4) : ℕ) : ℤ) := by
    omega
  have hsize : ((n : ℤ) - (lengthofs (demType type) + 4)).toNat = n - (lengthofs (demType type) + 4) := by
    omega
  rw [packetData, if_neg (by omega), hstart, hsize, slice, if_pos (by omega), Int.toNat_natCast,
    drop_take, drop_drop]

/-- What `SV_EarlyParse` finds in a header. -/
theorem earlyLength_eq (htype : byteAt buf (p + 1) = some type)
    (hlt : ∀ l, lengthField (buf.drop p) = some l → l.toNat + 10 < 2 ^ 31) :
    (earlyLength buf p type = some none ∧ packetSize (buf.drop p) = none) ∨
      ∃ n : ℕ, earlyLength buf p type = some (some (n : ℤ)) ∧ packetSize (buf.drop p) = some n ∧
        (demType type ≠ demSet → lengthofs (demType type) + 4 ≤ n) := by
  unfold earlyLength
  by_cases hset : demType type = demSet
  · rw [if_pos hset]
    exact .inr ⟨10, rfl, packetSize_demSet htype hset, fun h => absurd hset h⟩
  rw [if_neg hset]
  by_cases hshort : (lengthofs (demType type) : ℤ) + 4 > buf.length - p
  · rw [if_pos hshort]
    exact .inl ⟨rfl, packetSize_short htype hset (by omega)⟩
  rw [if_neg hshort]
  obtain ⟨l, hl⟩ : ∃ l, longAt buf ((p : ℤ) + lengthofs (demType type)) = some l := by
    have := @longAt_isSome buf (p + lengthofs (demType type)) (by omega)
    rwa [Nat.cast_add] at this
  obtain ⟨hsmall, hsize⟩ := packetSize_long htype hset hl hlt
  refine .inr ⟨l.toNat + lengthofs (demType type) + 4, ?_, hsize, fun _ => by omega⟩
  have hofs := lengthofs_le (demType type)
  have hnat : (l + BitVec.ofNat 32 (lengthofs (demType type) + 4)).toNat
      = l.toNat + (lengthofs (demType type) + 4) := by
    rw [BitVec.toNat_add, BitVec.toNat_ofNat, Nat.mod_eq_of_lt (a := lengthofs (demType type) + 4) (by omega),
      Nat.mod_eq_of_lt (by omega)]
  rw [hl, map_some, BitVec.toInt_eq_toNat_of_lt (by omega), hnat, add_assoc]

end Buffer

/-! ## `SV_EarlyParse` -/

section EarlyParse

variable {S buf : List Byte} {c p n : ℕ} {type : Byte} {isDemo : Bool}

theorem length_packet (h : p + n ≤ buf.length) : ((buf.drop p).take n).length = n := by
  rw [length_take, length_drop]
  omega

theorem byteAt_packet (htype : byteAt buf (p + 1) = some type) (hn : 2 ≤ n) :
    byteAt ((buf.drop p).take n) 1 = some type := by
  rw [← byteAt_one htype, show (1 : ℤ) = (1 : ℕ) from rfl, byteAt_natCast, byteAt_natCast,
    List.getElem?_take_of_lt (by omega)]

theorem packetData_packet (h : p + n ≤ buf.length) (hn : lengthofs (demType type) + 4 ≤ n) :
    packetData ((buf.drop p).take n) 0 ((buf.drop p).take n).length type = packetData buf p n type := by
  have hlen := length_packet h
  have := @packetData_eq ((buf.drop p).take n) 0 n type (by omega) hn
  rw [drop_zero, take_of_length_le hlen.le] at this
  rw [hlen, packetData_eq h hn, ← this]
  rfl

theorem earlyEvent_packet (htype : byteAt buf (p + 1) = some type) (h : p + n ≤ buf.length) (h2 : 2 ≤ n)
    (hn : demType type ≠ demSet → lengthofs (demType type) + 4 ≤ n) :
    earlyEvent isDemo ((buf.drop p).take n) =
      if demType type = demAll ∧ type &&& ~~~7 ≠ 0 ∧ isDemo = false then
        (packetData buf p n type).map fun data => ⟨data, type.toNat, BitVec.allOnes 32⟩
      else none := by
  rw [earlyEvent, byteAt_packet htype h2, bind_some]
  split
  · rename_i hall
    rw [packetData_packet h (hn (by simp [hall.1, demAll, demSet]))]
  · rfl

/-- From `p` on, `SV_EarlyParse` ends with `r` behind the last whole packet of the buffer. -/
def EarlyEnd (S buf : List Byte) (c : ℕ) (isDemo : Bool) (p : ℕ) (early : List Event)
    (r : Outcome (ℤ × List Event)) : Prop :=
  ∃ (p' : ℕ) (more : List Event), r = .done ((p' : ℤ), early ++ more) ∧ p' ≤ buf.length ∧
    Walk S (c + p) (c + p') ∧ (∀ n, packetSize (buf.drop p') = some n → buf.length < p' + n) ∧
    ∀ events, Parsed (fun _ => earlyEvent isDemo) S (c + p) events →
      Parsed (fun _ => earlyEvent isDemo) S (c + p') (events ++ more)

theorem EarlyEnd.stay {early : List Event} (hp : p ≤ buf.length)
    (h : ∀ n, packetSize (buf.drop p) = some n → buf.length < p + n) :
    EarlyEnd S buf c isDemo p early (.done ((p : ℤ), early)) :=
  ⟨p, [], by rw [append_nil], hp, PacketWalk.Walk.refl _, h, fun events h => by
    rwa [append_nil]⟩

theorem EarlyEnd.packet {early : List Event} {r : Outcome (ℤ × List Event)} (hbuf : buf <+: S.drop c)
    (hsize : packetSize (buf.drop p) = some n) (hle : p + n ≤ buf.length)
    (h : EarlyEnd S buf c isDemo (p + n) (early ++ (earlyEvent isDemo ((buf.drop p).take n)).toList) r) :
    EarlyEnd S buf c isDemo p early r := by
  obtain ⟨p', more, rfl, hp', hwalk, hmax, hparsed⟩ := h
  have hpacket := packet_of_isPrefix hbuf hsize hle
  refine ⟨p', _, by rw [append_assoc], hp', (PacketWalk.Walk.of hpacket).trans (add_assoc c p n ▸ hwalk),
    hmax, fun events h => ?_⟩
  rw [← append_assoc]
  refine hparsed _ ?_
  rw [← take_of_isPrefix hbuf hle, ← add_assoc]
  obtain ⟨-, -, -, hS⟩ := hpacket
  exact h.packet (packetSize_mono (drop_isPrefix hbuf p) hsize) hS

/-- `SV_EarlyParse` takes every whole packet, and comes to an end. -/
theorem earlyLoop_spec (hbuf : buf <+: S.drop c) (hclean : Clean S) (fuel : ℕ) (p : ℕ)
    (early : List Event) (hp : p ≤ buf.length) (hwalk : Walk S 0 (c + p)) (hfuel : buf.length - p < fuel) :
    EarlyEnd S buf c isDemo p early (earlyLoop isDemo buf fuel p early) := by
  induction fuel generalizing p early with
  | zero => omega
  | succ fuel ih =>
    unfold earlyLoop
    by_cases htwo : (buf.length : ℤ) - p < 2
    · rw [if_pos htwo]
      refine .stay hp fun n hn => ?_
      obtain ⟨type, htype, -⟩ := bind_eq_some_iff.mp hn
      rw [show (1 : ℤ) = (1 : ℕ) from rfl, byteAt_natCast] at htype
      have := (List.getElem?_eq_some_iff.mp htype).1
      rw [length_drop] at this
      omega
    rw [if_neg htwo]
    obtain ⟨type, htype⟩ : ∃ type, byteAt buf ((p : ℤ) + 1) = some type := by
      rw [show (p : ℤ) + 1 = (p + 1 : ℕ) from rfl, byteAt_natCast]
      exact ⟨_, List.getElem?_eq_getElem (by omega)⟩
    simp only [htype]
    rcases earlyLength_eq htype fun l hl => lengthField_lt hbuf hclean hwalk hl with
      ⟨hlen, hsize⟩ | ⟨n, hlen, hsize, hn⟩
    · simp only [hlen]
      exact .stay hp fun n hn => by simp [hsize] at hn
    simp only [hlen]
    by_cases hrest : (buf.length : ℤ) - p < n
    · rw [if_pos hrest]
      refine .stay hp fun m hm => ?_
      rw [some.inj (hm.symm.trans hsize)]
      omega
    rw [if_neg hrest]
    have hle : p + n ≤ buf.length := by omega
    have hpos := packetSize_pos hsize
    have htwo' : 2 ≤ n := by
      by_cases hset : demType type = demSet
      · rw [some.inj (hsize.symm.trans (packetSize_demSet htype hset))]
        decide
      · exact (by omega : 2 ≤ lengthofs (demType type) + 4).trans (hn hset)
    have hgo (event : Option Event) (h : earlyEvent isDemo ((buf.drop p).take n) = event) :
        EarlyEnd S buf c isDemo p early (earlyLoop isDemo buf fuel (p + n : ℕ) (early ++ event.toList)) := by
      subst h
      refine .packet hbuf hsize hle (ih (p + n) _ hle ?_ (by omega))
      rw [← add_assoc]
      exact hwalk.trans (PacketWalk.Walk.of (packet_of_isPrefix hbuf hsize hle))
    have hevent := @earlyEvent_packet buf p n type isDemo htype hle htwo' hn
    split
    · rename_i hall
      have hdata := packetData_eq hle (hn (by simp [hall.1, demAll, demSet]))
      rw [if_pos hall, hdata, map_some] at hevent
      simp only [hdata]
      exact hgo _ hevent
    · rename_i hall
      rw [if_neg hall] at hevent
      have := hgo _ hevent
      rwa [toList_none, append_nil] at this

end EarlyParse

/-! ## The proxy on a stream -/

/-- The packet at `c` is refused. -/
def Overlong (S : List Byte) (c : ℕ) : Prop := ∃ l, lengthField (S.drop c) = some l ∧ maxMsglen < l.toInt

/-- The buffer holds the stream from `c` on, of which whole packets up to `c + f` have been forwarded,
once and in order. -/
structure Buffered (cfg : Config) (S : List Byte) (c f : ℕ) (q : Qtv) : Prop where
  le : c ≤ S.length
  rest : S.drop c = q.buffer ++ q.pending
  point : q.forwardpoint = f
  point_le : f ≤ q.buffer.length
  ahead : Walk S c (c + f)
  forwarded : Forwarded S (c + f) q.forwarded
  late : cfg.lateforward = true → q.early = []
  early : cfg.lateforward = false → Parsed (fun _ => earlyEvent q.isDemo) S (c + f) q.early

/-- Without `lateforward`, no whole packet of the buffer waits to be forwarded. -/
def Caught (cfg : Config) (f : ℕ) (q : Qtv) : Prop :=
  cfg.lateforward = false → ∀ n, packetSize (q.buffer.drop f) = some n → q.buffer.length < f + n

/-- The connection was given up at a packet that is refused. -/
structure Flushed (S : List Byte) (c : ℕ) (q : Qtv) : Prop where
  overlong : Overlong S c
  buffer : q.buffer = []
  point : q.forwardpoint = 0
  closed : q.isOpen = false
  forwarded : ∃ f, Walk S c f ∧ Forwarded S f q.forwarded
  early : ∃ e, Parsed (fun _ => earlyEvent q.isDemo) S e q.early

/-- The packets of `S` up to `c` have been played, and the rest is in the buffer or was given up. -/
structure Stands (cfg : Config) (S : List Byte) (c : ℕ) (q : Qtv) : Prop where
  parsed : Parsed (loopEvent cfg q.isDemo) S c q.parsed
  buffered : (∃ f, Buffered cfg S c f q ∧ Caught cfg f q) ∨ Flushed S c q

section Proxy

variable {cfg : Config} {S : List Byte} {c f n : ℕ} {q : Qtv}

theorem Buffered.prefix (h : Buffered cfg S c f q) : q.buffer <+: S.drop c :=
  h.rest ▸ prefix_append ..

theorem Buffered.earlyParsed (h : Buffered cfg S c f q) :
    ∃ e, Parsed (fun _ => earlyEvent q.isDemo) S e q.early := by
  cases hlate : cfg.lateforward with
  | true => exact ⟨0, h.late hlate ▸ .start⟩
  | false => exact ⟨_, h.early hlate⟩

theorem slice_eq {buf : List Byte} {i m : ℕ} (h : i + m ≤ buf.length) :
    slice buf i m = some ((buf.drop i).take m) := by
  rw [slice, if_pos ⟨by omega, by omega⟩, Int.toNat_natCast]

theorem Buffered.forwardEarly (h : Buffered cfg S c f q) (hclean : Clean S) (hwalk : Walk S 0 c) :
    ∃ early forwarded point f', q.forwardEarly cfg
        = .done { q with early := early, forwarded := forwarded, forwardpoint := point } ∧
      Buffered cfg S c f' { q with early := early, forwarded := forwarded, forwardpoint := point } ∧
      Caught cfg f' { q with early := early, forwarded := forwarded, forwardpoint := point } := by
  unfold Qtv.forwardEarly
  cases hlate : cfg.lateforward with
  | true => exact ⟨_, _, _, f, rfl, h, fun h => by rw [hlate] at h; cases h⟩
  | false =>
    have hend : EarlyEnd S q.buffer c q.isDemo f [] (earlyParse q.isDemo q.buffer f) :=
      earlyLoop_spec h.prefix hclean _ f [] h.point_le (hwalk.trans h.ahead) (by omega)
    obtain ⟨f', more, hparse, hf', hw, hmax, hevents⟩ := hend
    have hff : f ≤ f' := by
      have := hw.le
      omega
    rw [h.point, hparse, nil_append, if_neg (by decide)]
    simp only
    have hearly := hevents _ (h.early hlate)
    split
    · rename_i hpos
      have hcut : ((f' : ℤ) - f).toNat = f' - f := by omega
      rw [hcut, slice_eq (by omega)]
      refine ⟨_, _, _, f', rfl, ⟨h.le, h.rest, rfl, hf', h.ahead.trans hw, ?_, fun h => ?_, fun _ => hearly⟩,
        fun _ => hmax⟩
      · have hpiece := h.forwarded.piece hw
        rwa [Nat.add_sub_add_left, take_of_isPrefix h.prefix (by omega)] at hpiece
      · rw [hlate] at h
        cases h
    · obtain rfl : f = f' := by omega
      refine ⟨_, _, _, f, rfl, ⟨h.le, h.rest, rfl, hf', h.ahead, h.forwarded, fun h => ?_, fun _ => hearly⟩,
        fun _ => hmax⟩
      rw [hlate] at h
      cases h

/-- A packet at the front of the buffer is removed. -/
theorem Buffered.removePacket (h : Buffered cfg S c f q) (hcaught : Caught cfg f q)
    (hn : packetSize q.buffer = some n) (hle : n ≤ q.buffer.length) :
    ∃ buffer forwarded point f', q.removePacket n
        = some { q with buffer := buffer, forwarded := forwarded, forwardpoint := point } ∧
      Buffered cfg S (c + n) f' { q with buffer := buffer, forwarded := forwarded, forwardpoint := point } ∧
      Caught cfg f' { q with buffer := buffer, forwarded := forwarded, forwardpoint := point } := by
  have hpos := packetSize_pos hn
  have hpacket : Packet S c (c + n) := by
    have := @packet_of_isPrefix S q.buffer c 0 n h.prefix (by rwa [drop_zero]) (by omega)
    rwa [Nat.add_zero] at this
  have hrest : slice q.buffer n (q.buffer.length - n : ℤ).toNat = some (q.buffer.drop n) := by
    rw [show (q.buffer.length - n : ℤ).toNat = q.buffer.length - n by omega, slice_eq (by omega),
      ← length_drop, take_length]
  have hdrop : S.drop (c + n) = q.buffer.drop n ++ q.pending := by
    rw [← drop_drop, h.rest, drop_append_of_le_length hle]
  have hS : c + n ≤ S.length := by
    obtain ⟨-, -, -, hS⟩ := hpacket
    exact hS
  unfold Qtv.removePacket
  rw [h.point]
  by_cases hlt : (f : ℤ) < n
  · -- a parser that is ahead of the packet is behind its end
    have hf : f = 0 := by
      by_contra hne
      have := (h.ahead.of_packet (by omega) hpacket).le
      omega
    subst hf
    have hlate : cfg.lateforward = true := by
      by_contra hne
      have := hcaught (by simpa using hne) n (by rwa [drop_zero])
      omega
    have hpiece : slice q.buffer 0 (n : ℤ).toNat = some (q.buffer.take n) := by
      have := @slice_eq q.buffer 0 n (by omega)
      rwa [drop_zero] at this
    rw [if_pos hlt, hpiece, map_some, bind_some]
    simp only [Qtv.forwardStream, hrest, map_some]
    refine ⟨_, _, _, 0, rfl, ⟨hS, hdrop, by simp, Nat.zero_le _, PacketWalk.Walk.refl _, ?_,
      h.late, fun h => ?_⟩, fun h => ?_⟩
    · have hforward := h.forwarded.piece (PacketWalk.Walk.of hpacket)
      rw [Nat.add_zero, Nat.add_sub_cancel_left] at hforward
      rwa [Nat.add_zero, ← take_append_of_le_length hle, ← h.rest]
    all_goals
      rw [hlate] at h
      cases h
  · rw [if_neg hlt, bind_some, hrest, map_some]
    obtain ⟨g, rfl⟩ : ∃ g, f = n + g := ⟨f - n, by omega⟩
    refine ⟨_, _, _, g, rfl, ⟨hS, hdrop, ?_, ?_, ?_, ?_, h.late, fun hlate => ?_⟩, fun hlate => ?_⟩
    · simp [h.point]
    · have := h.point_le
      rw [length_drop]
      omega
    · rw [add_assoc]
      exact h.ahead.of_packet (by omega) hpacket
    · rw [add_assoc]
      exact h.forwarded
    · rw [add_assoc]
      exact h.early hlate
    · intro m hm
      have := hcaught hlate m (by rwa [drop_drop] at hm)
      rw [length_drop]
      omega

theorem Buffered.append_pending (h : Buffered cfg S c f q) (m : ℕ) :
    Buffered cfg S c f { q with buffer := q.buffer ++ q.pending.take m, pending := q.pending.drop m } := by
  refine ⟨h.le, ?_, h.point, ?_, h.ahead, h.forwarded, h.late, h.early⟩
  · rw [h.rest, append_assoc, take_append_drop]
  · have := h.point_le
    rw [length_append]
    omega

/-- `Net_ReadStream` loses nothing, however much it reads. -/
theorem Stands.netReadStream (h : Stands cfg S c q) (hclean : Clean S) (arrived : ℕ) :
    ∃ q', q.netReadStream cfg arrived = .done q' ∧ Stands cfg S c q' := by
  have hwalk := h.parsed.walk
  have hread (f m : ℕ) (hb : Buffered cfg S c f q) : ∃ q', Qtv.forwardEarly cfg { q with
      buffer := q.buffer ++ q.pending.take m, pending := q.pending.drop m } = .done q' ∧
      Stands cfg S c q' := by
    obtain ⟨_, _, _, f', hforward, hb', hcaught⟩ := (hb.append_pending m).forwardEarly hclean hwalk
    exact ⟨_, hforward, h.parsed, .inl ⟨f', hb', hcaught⟩⟩
  unfold Qtv.netReadStream
  rcases h.buffered with ⟨f, hb, hcaught⟩ | hflushed
  · simp only
    split
    · exact ⟨q, rfl, h⟩
    split
    · split
      · exact ⟨q, rfl, h⟩
      split
      · refine ⟨_, rfl, h.parsed, .inl ⟨f, ?_, hcaught⟩⟩
        exact ⟨hb.le, hb.rest, hb.point, hb.point_le, hb.ahead, hb.forwarded, hb.late, hb.early⟩
      · exact hread f _ hb
    · split
      · exact ⟨q, rfl, h⟩
      · exact hread f _ hb
  · simp only
    rw [if_pos (.inl hflushed.closed)]
    exact ⟨q, rfl, h⟩

theorem slice_mono {p r : List Byte} {i : ℤ} {m : ℕ} {x : List Byte} (h : p <+: r)
    (hx : slice p i m = some x) : slice r i m = some x := by
  obtain ⟨t, rfl⟩ := h
  unfold slice at hx ⊢
  split at hx
  · rename_i hin
    rw [if_pos ⟨hin.1, by rw [length_append]; omega⟩, drop_append_of_le_length (by omega),
      take_append_of_le_length (by rw [length_drop]; omega)]
    exact hx
  · cases hx

theorem packetEvent_mono {hidden isDemo : Bool} {p r : List Byte} {type : Byte} {length : ℤ}
    {event : Option Event} (h : p <+: r) (hp : packetEvent hidden isDemo p type length = some event) :
    packetEvent hidden isDemo r type length = some event := by
  unfold packetEvent packetData at hp ⊢
  obtain ⟨data, hdata, hp⟩ := bind_eq_some_iff.mp hp
  split at hdata
  · cases hdata
  rw [if_neg ‹_›, slice_mono h hdata, bind_some]
  split
  · rw [if_pos ‹_›] at hp
    obtain ⟨target, htarget, hp⟩ := map_eq_some_iff.mp hp
    rw [longAt_mono h htarget, map_some, hp]
  · rw [if_neg ‹_›] at hp
    exact hp

/-- A whole packet can be parsed. -/
theorem packetEvent_isSome {hidden isDemo : Bool} {buf : List Byte} {type : Byte}
    (hofs : lengthofs (demType type) + 4 ≤ n) (hle : n ≤ buf.length) :
    ∃ event, packetEvent hidden isDemo buf type n = some event := by
  have hdata := @packetData_eq buf 0 n type (by omega) hofs
  rw [Nat.cast_zero] at hdata
  unfold packetEvent
  rw [hdata, bind_some]
  split
  · rename_i hmult
    rw [hmult] at hofs
    obtain ⟨target, htarget⟩ := @longAt_isSome buf 2 ((by decide : 2 + 4 ≤ lengthofs demMultiple + 4).trans
      (hofs.trans hle))
    rw [Nat.cast_ofNat] at htarget
    exact ⟨_, by rw [htarget, map_some]⟩
  · split
    · exact ⟨_, rfl⟩
    · split
      · exact ⟨_, rfl⟩
      · split <;> exact ⟨_, rfl⟩

/-- The call of `ParseMessage` for a packet at the front of the buffer. -/
theorem packetEvent_eq {isDemo : Bool} {buf : List Byte} {type : Byte} {events : List Event}
    (htype : byteAt buf 1 = some type) (hset : demType type ≠ demSet)
    (hofs : lengthofs (demType type) + 4 ≤ n) (hle : n ≤ buf.length) :
    packetEvent (cfg.hidden events) isDemo buf type n = some (loopEvent cfg isDemo events (buf.take n)) := by
  have hlen : (buf.take n).length = n := length_take_of_le hle
  have hfirst : byteAt (buf.take n) 1 = some type := by
    have := @byteAt_packet buf 0 n type (by simpa using htype) (by omega)
    rwa [drop_zero] at this
  obtain ⟨event, hevent⟩ := @packetEvent_isSome n (cfg.hidden events) isDemo (buf.take n) type hofs hlen.ge
  rw [packetEvent_mono ( take_prefix n buf) hevent, loopEvent, hfirst, bind_some, if_neg hset, hlen, hevent, join_some]

/-- What a round of the packet loop comes to: a packet is played, or none can be yet. -/
inductive PassEnd (cfg : Config) (S : List Byte) (c curtime : ℕ) : Qtv.Pass → Prop
  | stop {q : Qtv} : Stands cfg S c q → PassEnd cfg S c curtime (.stop q)
  | wait {q : Qtv} : Stands cfg S c q → curtime < q.parsetime → PassEnd cfg S c curtime (.go q)
  | played {q : Qtv} {n : ℕ} : 0 < n → Stands cfg S (c + n) q → PassEnd cfg S c curtime (.go q)

/-- The fields that say when the next packet is due. -/
theorem Stands.setTimes (h : Stands cfg S c q) (parsetime nextpackettime : ℕ) :
    Stands cfg S c { q with parsetime := parsetime, nextpackettime := nextpackettime } := by
  refine ⟨h.parsed, ?_⟩
  rcases h.buffered with ⟨f, hb, hcaught⟩ | hf
  · exact .inl ⟨f, ⟨hb.le, hb.rest, hb.point, hb.point_le, hb.ahead, hb.forwarded, hb.late, hb.early⟩, hcaught⟩
  · exact .inr ⟨hf.overlong, hf.buffer, hf.point, hf.closed, hf.forwarded, hf.early⟩

theorem Stands.played {events : List Event} (hparsed : Parsed (loopEvent cfg q.isDemo) S c q.parsed)
    (hb : Buffered cfg S c f q) (hcaught : Caught cfg f q) (hn : packetSize q.buffer = some n)
    (hle : n ≤ q.buffer.length)
    (hevents : events = q.parsed ++ (loopEvent cfg q.isDemo q.parsed (q.buffer.take n)).toList) :
    ∃ q', { q with parsed := events }.removePacket n = some q' ∧ Stands cfg S (c + n) q' := by
  have hb' : Buffered cfg S c f { q with parsed := events } :=
    ⟨hb.le, hb.rest, hb.point, hb.point_le, hb.ahead, hb.forwarded, hb.late, hb.early⟩
  obtain ⟨_, _, _, f', hremove, hb'', hcaught'⟩ := hb'.removePacket hcaught hn hle
  refine ⟨_, hremove, ?_, .inl ⟨f', hb'', hcaught'⟩⟩
  subst hevents
  have htake : q.buffer.take n = (S.drop c).take n := by
    rw [hb.rest, take_append_of_le_length hle]
  simp only [htake]
  refine hparsed.packet (packetSize_mono hb.prefix hn) ?_
  have := congrArg List.length hb.rest
  rw [length_drop, length_append] at this
  have := hb.le
  omega

end Proxy

section Loop

variable {cfg : Config} {S : List Byte} {c f n : ℕ} {q : Qtv}

theorem playPacket_end {curtime parsespeed : ℕ} {time type : Byte} (hclean : Clean S)
    (hparsed : Parsed (loopEvent cfg q.isDemo) S c q.parsed) (hb : Buffered cfg S c f q) (hcaught : Caught cfg f q)
    (htype : byteAt q.buffer 1 = some type) (hset : demType type ≠ demSet) (hn : packetSize q.buffer = some n)
    (hofs : lengthofs (demType type) + 4 ≤ n) (hle : n ≤ q.buffer.length) :
    PassEnd cfg S c curtime (q.playPacket cfg curtime parsespeed time type n) := by
  have hstands : Stands cfg S c q := ⟨hparsed, .inl ⟨f, hb, hcaught⟩⟩
  unfold Qtv.playPacket
  simp only
  split
  · have hb' : Buffered cfg S c f { q with nextpackettime := addTime q.parsetime (Qtv.packettime parsespeed time) } :=
      ⟨hb.le, hb.rest, hb.point, hb.point_le, hb.ahead, hb.forwarded, hb.late, hb.early⟩
    obtain ⟨q₁, hremove, hq₁⟩ := @Stands.played cfg S c f n
      { q with nextpackettime := addTime q.parsetime (Qtv.packettime parsespeed time) } _ hparsed hb' hcaught hn
      hle rfl
    simp only at hremove
    simp only [packetEvent_eq htype hset hofs hle, hremove]
    have hgo : ∃ q₂, (if q₁.sourcefile then q₁.netReadStream cfg 0 else .done q₁) = .done q₂ ∧
        Stands cfg S (c + n) q₂ := by
      split
      · exact hq₁.netReadStream hclean 0
      · exact ⟨q₁, rfl, hq₁⟩
    obtain ⟨q₂, hread, hq₂⟩ := hgo
    simp only [hread]
    exact .played (packetSize_pos hn) (hq₂.setTimes _ q₂.nextpackettime)
  · exact .stop (hstands.setTimes q.parsetime _)

/-- A round of the packet loop on a clean stream. -/
theorem pass_end {curtime parsespeed : ℕ} (hclean : Clean S) (h : Stands cfg S c q)
    (htime : curtime < addTime curtime cfg.tooslowdelay) :
    PassEnd cfg S c curtime (q.pass cfg curtime parsespeed) := by
  have hwait : Stands cfg S c { q with parsetime := addTime curtime cfg.tooslowdelay } :=
    h.setTimes _ q.nextpackettime
  unfold Qtv.pass
  simp only
  split
  · rename_i time type rest hbuf
    rcases h.buffered with ⟨f, hb, hcaught⟩ | hflushed
    swap
    · rw [hflushed.buffer] at hbuf
      cases hbuf
    have htype : byteAt q.buffer 1 = some type := by
      rw [hbuf]
      rfl
    have htype' : byteAt q.buffer ((0 : ℕ) + 1) = some type := htype
    split
    · rename_i hset
      have hsize := packetSize_demSet htype' hset
      rw [drop_zero] at hsize
      split
      · exact .wait hwait htime
      · have hb' : Buffered cfg S c f { q with parsetime := addTime q.parsetime time.toNat } :=
          ⟨hb.le, hb.rest, hb.point, hb.point_le, hb.ahead, hb.forwarded, hb.late, hb.early⟩
        have hnone : loopEvent cfg q.isDemo q.parsed (q.buffer.take 10) = none := by
          have hfirst := @byteAt_packet q.buffer 0 10 type htype' (by decide)
          rw [drop_zero] at hfirst
          rw [loopEvent, hfirst, bind_some, if_pos hset]
        obtain ⟨q₁, hremove, hq₁⟩ := @Stands.played cfg S c f 10
          { q with parsetime := addTime q.parsetime time.toNat } q.parsed h.parsed hb' hcaught hsize
          (show 10 ≤ q.buffer.length by omega)
          (by simp [hnone])
        rw [show (10 : ℤ) = (10 : ℕ) from rfl, hremove]
        exact .played (by decide) hq₁
    · rename_i hset
      split
      · exact .stop hwait
      · rename_i hlong
        obtain ⟨l, hl⟩ := @longAt_isSome q.buffer (lengthofs (demType type)) (by omega)
        have hlt := fun l hl => @lengthField_lt S q.buffer c 0 hb.prefix hclean h.parsed.walk l hl
        obtain ⟨hsmall, hsize⟩ := @packetSize_long q.buffer 0 type l htype' hset (by simpa using hl) hlt
        rw [drop_zero] at hsize
        have hint : l.toInt = l.toNat := BitVec.toInt_eq_toNat_of_lt (by omega)
        simp only [hl]
        split
        · rename_i hover
          refine .stop ⟨h.parsed, .inr ⟨⟨l, ?_, hover⟩, rfl, rfl, rfl, ⟨c + f, hb.ahead, hb.forwarded⟩, hb.earlyParsed⟩⟩
          refine lengthField_mono hb.prefix ?_
          rw [lengthField, htype, bind_some, if_neg hset, hl]
        · split
          · exact .stop hwait
          · have hcast : l.toInt + (lengthofs (demType type) : ℤ) + 4
                = ((l.toNat + lengthofs (demType type) + 4 : ℕ) : ℤ) := by
              rw [hint]
              push_cast
              rfl
            rw [hcast] at *
            exact playPacket_end hclean h.parsed hb hcaught htype hset hsize (by omega) (by omega)
  · split
    · exact .stop hwait
    · exact .stop h

/-- The packet loop on a clean stream: it does not leave the buffer, and comes to an end in as many
rounds as there are bytes, and one more. -/
theorem packetLoop_spec {curtime parsespeed : ℕ} (hclean : Clean S) (htime : curtime < addTime curtime cfg.tooslowdelay)
    (fuel : ℕ) {c : ℕ} {q : Qtv} (h : Stands cfg S c q) :
    (Qtv.packetLoop cfg curtime parsespeed fuel q = .outOfFuel ∧ fuel ≤ S.length - c + 1) ∨
      ∃ q' c', Qtv.packetLoop cfg curtime parsespeed fuel q = .done q' ∧ Stands cfg S c' q' := by
  induction fuel generalizing c q with
  | zero => exact .inl ⟨rfl, Nat.zero_le _⟩
  | succ fuel ih =>
    unfold Qtv.packetLoop
    split
    · exact .inr ⟨q, c, rfl, h⟩
    have hend := @pass_end cfg S c q curtime parsespeed hclean h htime
    generalize q.pass cfg curtime parsespeed = r at hend
    cases hend with
    | @stop q₁ hq₁ => exact .inr ⟨q₁, c, rfl, hq₁⟩
    | @wait q₁ hq₁ hlater =>
      -- the next round sees that it is not yet time
      cases fuel with
      | zero => exact .inl ⟨rfl, Nat.le_add_left ..⟩
      | succ fuel =>
        refine .inr ⟨q₁, c, ?_, hq₁⟩
        simp only [Qtv.packetLoop, if_pos hlater]
    | @played q₁ n hn hq₁ =>
      rcases ih hq₁ with ⟨hout, hfuel⟩ | hdone
      · have hle : c + n ≤ S.length := hq₁.parsed.walk.le_length (Nat.zero_le _)
        exact .inl ⟨hout, by omega⟩
      · exact .inr hdone

end Loop

end MvdStream

end FteQuake
