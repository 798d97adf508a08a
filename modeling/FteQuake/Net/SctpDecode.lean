import FteQuake.Lib.ReadLog
import FteQuake.Net.SctpReceive
import Mathlib.Data.BitVec
import Mathlib.Logic.Function.Iterate

/-!
# Parsing of SCTP packets

The walks of `SCTP_Decode` of `net_ice.c` over the bytes of a packet: over its chunks, over the parameters of an INIT
chunk, and, in `SCTP_ErrorChunk`, over the causes of an error. What they read and copy is logged, and what
`SCTP_DecodeDCEP` reads of a message. What a chunk does to the association is `Assoc.chunk`.

`Sound` is the grammar of the packets that are parsed as they should (`decode_stays_iff`). The walk over the chunks is
right; the two others do not look at all lengths that they go on by.
-/

namespace FteQuake

open List BitVec

namespace SctpDecode

open Sctp

/-- What a walk accesses. -/
inductive Access
  /-- `n` bytes are read from `p` on, of `stop`. -/
  | read (p n stop : ℕ)
  /-- `n` bytes are copied from `p` on, of something that ends at `stop`, to where there is room for `room`. -/
  | copy (p n stop room : ℕ)
  /-- A string is read up to its end; from its start on there are these bytes. -/
  | text (rest : List QByte)

def Access.Inside : Access → Prop
  | read p n stop => p + n ≤ stop
  | copy p n stop room => p + n ≤ stop ∧ n ≤ room
  | text rest => 0 ∈ rest

@[simp] theorem Access.inside_read {p n stop : ℕ} : (read p n stop).Inside ↔ p + n ≤ stop := Iff.rfl

@[simp] theorem Access.inside_copy {p n stop room : ℕ} :
    (copy p n stop room).Inside ↔ p + n ≤ stop ∧ n ≤ room := Iff.rfl

@[simp] theorem Access.inside_text {rest : List QByte} : (text rest).Inside ↔ 0 ∈ rest := Iff.rfl

/-! ## Channel-open messages -/

/-- The label, and all behind it. -/
def label (buf : List QByte) : List QByte := buf.drop 12

/-- The protocol, behind the end of the label. -/
def prot (buf : List QByte) : List QByte := ((label buf).dropWhile (· ≠ 0)).tail

/-- `SCTP_DecodeDCEP`: `strlen` of the label, and both strings if they are printed. -/
def decodeDcep (debug : Bool) (buf : List QByte) : List Access :=
  .read 0 1 buf.length ::
    if buf.head? = some 3 then
      .text (label buf) :: if debug then [.text (label buf), .text (prot buf)] else []
    else []

/-- A message that has a type and, if it opens a channel, its strings with their ends. -/
structure Whole (debug : Bool) (buf : List QByte) : Prop where
  type : buf ≠ []
  label : buf.head? = some 3 → 0 ∈ label buf
  prot : buf.head? = some 3 → debug → 0 ∈ prot buf

theorem decodeDcep_inside {debug : Bool} {buf : List QByte} :
    (∀ a ∈ decodeDcep debug buf, a.Inside) ↔ Whole debug buf := by
  have htype : 0 + 1 ≤ buf.length ↔ buf ≠ [] := by rw [← length_pos_iff]; omega
  constructor
  · intro h
    refine ⟨htype.mp (h _ (mem_cons_self ..)), fun h3 => ?_, fun h3 hdebug => ?_⟩
    · exact h (.text (label buf)) (by simp [decodeDcep, h3])
    · exact h (.text (prot buf)) (by simp [decodeDcep, h3, hdebug])
  · intro h a ha
    simp only [decodeDcep, mem_cons] at ha
    obtain rfl | ha := ha
    · exact htype.mpr h.type
    · split_ifs at ha with h3 hdebug
      · simp only [mem_cons, not_mem_nil, or_false] at ha
        obtain rfl | rfl | rfl := ha
        exacts [h.label h3, h.label h3, h.prot h3 hdebug]
      · rw [mem_singleton.mp ha]
        exact h.label h3
      · cases ha

/-! ## Error causes -/

section

variable (m : Mem QByte) (size : ℕ) (debug : Bool)

/-- `SCTP_ErrorChunk`, from the cause at `s` on. The text of a protocol violation is printed. -/
def errorChunk : ℕ → ℕ → ℕ → Walked Access
  | 0, _, _ => .endless
  | fuel + 1, s, totallen =>
    if totallen = 0 then .done []
    else if totallen < 4 then .done []
    else
      let cl := (m.bigShort (s + 2)).toNat
      if totallen < cl then .done [.read s 2 size, .read (s + 2) 2 size]
      else
        .before
          ([.read s 2 size, .read (s + 2) 2 size] ++
            if debug ∧ m.bigShort s = 13 then [.text (m.slice (s + 4) (size - (s + 4)))] else [])
          (errorChunk fuel (s + pad4 cl) ((totallen - cl) / 4 * 4))

/-- The causes of an error, from `s` on in `totallen` bytes. -/
inductive Causes : ℕ → ℕ → Prop
  | short {s totallen : ℕ} : totallen < 4 → Causes s totallen
  /-- A cause that is longer than what is left. -/
  | refused {s totallen : ℕ} : 4 ≤ totallen → totallen < (m.bigShort (s + 2)).toNat → Causes s totallen
  | cause {s totallen : ℕ} : 4 ≤ totallen → (m.bigShort (s + 2)).toNat ≤ totallen → m.bigShort (s + 2) ≠ 0 →
      (debug → m.bigShort s = 13 → 0 ∈ m.slice (s + 4) (size - (s + 4))) →
      Causes (s + pad4 (m.bigShort (s + 2)).toNat) ((totallen - (m.bigShort (s + 2)).toNat) / 4 * 4) →
      Causes s totallen

/-! ## Parameters -/

/-- A parameter that is not known, and after which nothing more is read of the packet. -/
def Refused (ptype : ℕ) : Prop :=
  ptype ≠ 7 ∧ ptype ≠ 32773 ∧ ptype ≠ 32776 ∧ ptype ≠ 49152 ∧ ptype &&& 0x8000 = 0

instance (ptype : ℕ) : Decidable (Refused ptype) := inferInstanceAs (Decidable (_ ∧ _))

/-- The parameter at `q`. -/
def paramAt (q : ℕ) : InitParam :=
  ⟨(m.bigShort q).toNat, m.slice (q + 4) ((m.bigShort (q + 2)).toNat - 4)⟩

/-- What is accessed for the parameter at `q`. The size of the cookie, `plen-sizeof(*p)`, is a `size_t`, and that much
is allocated for it. -/
def paramAccesses (stop q : ℕ) : List Access :=
  let cookiesize := ((m.bigShort (q + 2)).toNat + 2 ^ 64 - 4) % 2 ^ 64
  [.read q 2 size, .read (q + 2) 2 size] ++
    if m.bigShort q = 7 then [.copy (q + 4) cookiesize stop cookiesize] else []

/-- The loop over the parameters of a chunk that ends at `stop`. -/
def readParams (stop : ℕ) : ℕ → ℕ → Walked Access × List InitParam
  | 0, _ => (.endless, [])
  | fuel + 1, q =>
    if stop < q + 4 then (.done [], [])
    else if Refused (m.bigShort q).toNat then (.done (paramAccesses m size stop q), [paramAt m q])
    else
      let rest := readParams stop fuel (q + pad4 (m.bigShort (q + 2)).toNat)
      (.before (paramAccesses m size stop q) rest.1, paramAt m q :: rest.2)

/-- The parameters from `q` on, and how they are read. -/
inductive Params (stop : ℕ) : ℕ → List InitParam → Prop
  | nil {q : ℕ} : stop < q + 4 → Params stop q []
  | refused {q : ℕ} : q + 4 ≤ stop → Refused (m.bigShort q).toNat → Params stop q [paramAt m q]
  | param {q : ℕ} {ps : List InitParam} : q + 4 ≤ stop → ¬ Refused (m.bigShort q).toNat → m.bigShort (q + 2) ≠ 0 →
      (m.bigShort q = 7 → 4 ≤ (m.bigShort (q + 2)).toNat ∧ q + (m.bigShort (q + 2)).toNat ≤ stop) →
      Params stop (q + pad4 (m.bigShort (q + 2)).toNat) ps → Params stop q (paramAt m q :: ps)

/-! ## Chunks -/

/-- What the types of chunks come to. -/
inductive ChunkType
  | data
  | init (isack : Bool)
  | sack
  | ping
  | error
  | cookieEcho
  | cookieAck
  | forwardTsn
  /-- A chunk of which nothing more is read: SHUTDOWN and PAD. -/
  | ignored
  | unsupported

def chunkType : QByte → ChunkType
  | 0 => .data
  | 1 => .init false
  | 2 => .init true
  | 3 => .sack
  | 4 => .ping
  | 6 | 9 => .error
  | 7 | 132 => .ignored
  | 10 => .cookieEcho
  | 11 => .cookieAck
  | 192 => .forwardTsn
  | _ => .unsupported

/-- A DATA chunk. -/
def dataAt (p clen : ℕ) : DataChunk where
  flags := m (p + 1)
  tsn := m.bigLong (p + 4)
  sid := m.bigShort (p + 8)
  seq := m.bigShort (p + 10)
  ppid := m.bigLong (p + 12)
  data := m.slice (p + 16) (clen - 16)

/-- What is accessed for a message that is complete: `net_message` has room for 65536 bytes. -/
def deliveryAccesses (d : Delivery) : List Access :=
  if d.ppid = sctpPpidData then [.copy 0 d.data.length bufSize 65536] else decodeDcep debug d.data

/-- What is accessed for a DATA chunk. -/
def dataAccesses (s : Assoc) (p clen : ℕ) : List Access :=
  let dc := dataAt m p clen
  let used := (s.r.start dc).buf.length
  .read (p + 1) 15 size ::
    ((if s.fate dc = .taken ∧ used + (clen - 16) ≤ bufSize then [.copy (p + 16) (clen - 16) (p + clen) (bufSize - used)]
      else []) ++
      (s.data dc false).2.1.elim [] (deliveryAccesses debug))

/-- The chunk at `p`, of `clen` bytes. The reply to an INIT has 4084 bytes behind its header. -/
def readChunk (s : Assoc) (fuel p clen : ℕ) : Walked Access × Chunk :=
  match chunkType (m p) with
  | .data =>
    if 16 ≤ clen then (.done (dataAccesses m size debug s p clen), .data (dataAt m p clen) false) else (.done [], .other)
  | .init isack =>
    if 20 ≤ clen then
      let ps := readParams m size (p + clen) fuel (p + 20)
      let c := Chunk.init isack (m.bigLong (p + 16)) ps.2
      ((ps.1.before [.read (p + 4) 16 size]).andThen
        (.done (if isack ∨ (s.chunk c).2.2 then [] else [.copy p 20 (p + clen) 4084])), c)
    else (.done [], .other)
  | .sack => (.done (if 16 ≤ clen then [.read (p + 4) 4 size, .read (p + 12) 2 size] else []), .other)
  | .ping => (.done [.copy p clen (p + clen) clen], .other)
  | .error => (errorChunk m size debug fuel (p + 4) (clen - 4), .other)
  | .cookieEcho => (.done [], .cookieEcho)
  | .cookieAck => (.done [], .cookieAck)
  | .forwardTsn =>
    if 8 ≤ clen then (.done [.read (p + 4) 4 size], .forwardTsn (m.bigLong (p + 4))) else (.done [], .other)
  | .ignored | .unsupported => (.done [], .other)

/-- A chunk that is not supported may end the packet: `clen`, 16 bits, is then that of all that is left. -/
def advance (p clen : ℕ) : ℕ :=
  match chunkType (m p) with
  | .unsupported => if (m p).toNat / 64 < 2 then (size - p) % 65536 else clen
  | _ => clen

end

/-! ## The packet -/

/-- What happens behind the parser: whether texts are printed, and what `ReadGamePacket` does with a message, that is
whether it leaves another `cursize` and what it transmits. -/
structure Env where
  debug : Bool
  game : Assoc → Delivery → Bool × List ℕ

/-- What a chunk does; the flag tells that `SCTP_Decode` returns. -/
def Env.round (env : Env) (s : Assoc) (c : Chunk) : Assoc × Bool :=
  match s.chunk c with
  | (s, some d, ret) =>
    if d.ppid = sctpPpidData then ((env.game s d).2.foldl Assoc.transmit s, (env.game s d).1) else (s, ret)
  | (s, none, ret) => (s, ret)

/-- The loop of `SCTP_Decode`. -/
def chunks (env : Env) (m : Mem QByte) (size : ℕ) : ℕ → ℕ → Assoc → Walked Access
  | 0, _, _ => .endless
  | fuel + 1, p, s =>
    if size < p + 4 then .done []
    else
      let clen := (m.bigShort (p + 2)).toNat
      if size < p + clen ∨ clen < 4 then .done [.read (p + 2) 2 size]
      else
        let c := readChunk m size env.debug s fuel p clen
        (c.1.before [.read (p + 2) 2 size, .read p 1 size]).andThen
          (if (env.round s c.2).2 then .done []
          else chunks env m size fuel (p + pad4 (advance m size p clen)) (env.round s c.2).1)

/-- One byte of `SCTP_Checksum`. -/
def checksumByte (crc : BitVec 32) : BitVec 32 :=
  (fun crc : BitVec 32 => if crc &&& 1 ≠ 0 then (crc >>> 1) ^^^ 0x82f63b78 else crc >>> 1)^[8] crc

def checksum (m : Mem QByte) (size : ℕ) : BitVec 32 :=
  ~~~ (List.range size).foldl
    (fun crc ofs => checksumByte (if 8 ≤ ofs ∧ ofs < 8 + 4 then crc else crc ^^^ (m ofs).setWidth 32)) 0xFFFFFFFF

/-- A field as it stands in memory. -/
def rawShort (m : Mem QByte) (p : ℕ) : BitVec 16 := m (p + 1) ++ m p

def rawLong (m : Mem QByte) (p : ℕ) : BitVec 32 := rawShort m (p + 2) ++ rawShort m p

/-- The fields of the association that the header of a packet is compared with. -/
structure Ports where
  myport : BitVec 16
  peerport : BitVec 16
  verifycode : BitVec 32

/-- The checks of the header. -/
structure Accepted (ports : Ports) (m : Mem QByte) (size : ℕ) : Prop where
  runt : 13 ≤ size
  dstport : rawShort m 2 = ports.myport
  srcport : rawShort m 0 = ports.peerport
  verifycode : rawLong m 4 = if m 12 = 1 then 0 else ports.verifycode
  crc : rawLong m 8 = checksum m size
  padded : size % 4 = 0

instance (ports : Ports) (m : Mem QByte) (size : ℕ) : Decidable (Accepted ports m size) :=
  decidable_of_iff (13 ≤ size ∧ rawShort m 2 = ports.myport ∧ rawShort m 0 = ports.peerport ∧
      rawLong m 4 = (if m 12 = 1 then 0 else ports.verifycode) ∧ rawLong m 8 = checksum m size ∧ size % 4 = 0)
    ⟨fun ⟨h₁, h₂, h₃, h₄, h₅, h₆⟩ => ⟨h₁, h₂, h₃, h₄, h₅, h₆⟩, fun ⟨h₁, h₂, h₃, h₄, h₅, h₆⟩ => ⟨h₁, h₂, h₃, h₄, h₅, h₆⟩⟩

/-- `SCTP_Decode`. A packet that is not a runt is read for its checks. -/
def decode (env : Env) (ports : Ports) (m : Mem QByte) (size : ℕ) (s : Assoc) (fuel : ℕ) : Walked Access :=
  if Accepted ports m size then
    (chunks env m size fuel 12 s).before [.read 0 13 size, .read 0 size size, .copy 0 size size size]
  else .done (if size < 13 then [] else [.read 0 13 size, .read 0 size size])

/-! ## Sound packets -/

/-- A chunk whose bytes are read as they should, and what it comes to. A message that a DATA chunk completes is whole if
it is for `SCTP_DecodeDCEP`. -/
def Parsed (m : Mem QByte) (size : ℕ) (debug : Bool) (s : Assoc) (p clen : ℕ) (c : Chunk) : Prop :=
  match chunkType (m p) with
  | .data =>
    if 16 ≤ clen then
      c = .data (dataAt m p clen) false ∧
        ∀ d, (s.data (dataAt m p clen) false).2.1 = some d → d.ppid ≠ sctpPpidData → Whole debug d.data
    else c = .other
  | .init isack =>
    if 20 ≤ clen then ∃ ps, Params m (p + clen) (p + 20) ps ∧ c = .init isack (m.bigLong (p + 16)) ps else c = .other
  | .error => c = .other ∧ Causes m size debug (p + 4) (clen - 4)
  | .cookieEcho => c = .cookieEcho
  | .cookieAck => c = .cookieAck
  | .forwardTsn => c = if 8 ≤ clen then .forwardTsn (m.bigLong (p + 4)) else .other
  | .sack | .ping | .ignored | .unsupported => c = .other

/-- The chunks from `p` on, each with the association before it. -/
inductive Sound (env : Env) (m : Mem QByte) (size : ℕ) : ℕ → Assoc → Prop
  | nil {p : ℕ} {s : Assoc} : size < p + 4 → Sound env m size p s
  /-- A chunk that is longer than the packet, or too short for itself. -/
  | corrupt {p : ℕ} {s : Assoc} : p + 4 ≤ size →
      size < p + (m.bigShort (p + 2)).toNat ∨ (m.bigShort (p + 2)).toNat < 4 → Sound env m size p s
  | returns {p : ℕ} {s : Assoc} {c : Chunk} : 4 ≤ (m.bigShort (p + 2)).toNat →
      p + (m.bigShort (p + 2)).toNat ≤ size → Parsed m size env.debug s p (m.bigShort (p + 2)).toNat c →
      (env.round s c).2 = true → Sound env m size p s
  | chunk {p : ℕ} {s : Assoc} {c : Chunk} : 4 ≤ (m.bigShort (p + 2)).toNat →
      p + (m.bigShort (p + 2)).toNat ≤ size → Parsed m size env.debug s p (m.bigShort (p + 2)).toNat c →
      (env.round s c).2 = false →
      Sound env m size (p + pad4 (advance m size p (m.bigShort (p + 2)).toNat)) (env.round s c).1 →
      Sound env m size p s

variable {env : Env} {ports : Ports} {m : Mem QByte} {size p clen fuel : ℕ} {debug : Bool} {s : Assoc}

theorem pad4_zero : pad4 0 = 0 := rfl

/-! ## The walks over causes and parameters -/

variable {q stop totallen : ℕ}

/-- A cause without a length is read again and again. -/
theorem not_stays_errorChunk (hcl : m.bigShort (q + 2) = 0) (h4 : 4 ≤ totallen) (fuel : ℕ) :
    ¬ (errorChunk m size debug fuel q totallen).Stays Access.Inside := by
  induction fuel generalizing totallen with
  | zero => simp [errorChunk]
  | succ fuel ih =>
    have hzero : (m.bigShort (q + 2)).toNat = 0 := by simp [hcl]
    rw [errorChunk, if_neg (by omega), if_neg (by omega)]
    simp only [hzero, Nat.not_lt_zero, if_false, pad4_zero, Nat.add_zero, Nat.sub_zero]
    exact fun h => ih (by omega) (Walked.stays_before.mp h).2

theorem causes_of_stays (h : (errorChunk m size debug fuel q totallen).Stays Access.Inside) :
    Causes m size debug q totallen := by
  induction fuel generalizing q totallen with
  | zero => simp [errorChunk] at h
  | succ fuel ih =>
    by_cases h4 : totallen < 4
    · exact .short h4
    have hall := h
    rw [errorChunk, if_neg (by omega), if_neg h4] at h
    dsimp only at h
    split at h
    case isTrue hlong => exact .refused (by omega) hlong
    case isFalse hlen =>
      obtain ⟨hreads, hrest⟩ := Walked.stays_before.mp h
      refine .cause (by omega) (by omega) (fun hcl => not_stays_errorChunk hcl (by omega) _ hall) ?_ (ih hrest)
      exact fun hdebug h13 => hreads (.text _) (by simp [hdebug, h13])

theorem stays_of_causes (h : Causes m size debug q totallen) (hq : q % 4 = 0)
    (hsize : size % 4 = 0) (hin : q + totallen ≤ size) (hfuel : totallen < fuel) :
    (errorChunk m size debug fuel q totallen).Stays Access.Inside := by
  induction h generalizing fuel with
  | short h4 =>
    obtain ⟨fuel, rfl⟩ := Nat.exists_eq_succ_of_ne_zero (Nat.ne_zero_of_lt hfuel)
    rw [errorChunk]
    split_ifs <;> simp
  | refused h4 hlong =>
    obtain ⟨fuel, rfl⟩ := Nat.exists_eq_succ_of_ne_zero (Nat.ne_zero_of_lt hfuel)
    rw [errorChunk, if_neg (by omega), if_neg (by omega)]
    simp only [if_pos hlong, Walked.stays_done, forall_mem_cons, Access.inside_read]
    exact ⟨by omega, by omega, by simp⟩
  | @cause q totallen h4 hlen hcl htext _ ih =>
    obtain ⟨fuel, rfl⟩ := Nat.exists_eq_succ_of_ne_zero (Nat.ne_zero_of_lt hfuel)
    have hpos : 0 < (m.bigShort (q + 2)).toNat := by
      rw [Nat.pos_iff_ne_zero]
      exact fun h => hcl (eq_of_toNat_eq h)
    rw [errorChunk, if_neg (by omega), if_neg (by omega)]
    simp only [if_neg (not_lt.mpr hlen), Walked.stays_before, forall_mem_append, forall_mem_cons, Access.inside_read]
    refine ⟨⟨⟨by omega, by omega, by simp⟩, ?_⟩, ?_⟩
    · split_ifs with h13
      · simpa using htext h13.1 h13.2
      · simp
    · -- The lengths are rounded, but so is the end of the packet.
      exact ih (by unfold pad4; omega) (by unfold pad4; omega) (by omega)

/-- A parameter without a length, as well. -/
theorem not_stays_readParams (hplen : m.bigShort (q + 2) = 0) (hin : q + 4 ≤ stop)
    (hknown : ¬ Refused (m.bigShort q).toNat) (fuel : ℕ) : ¬ (readParams m size stop fuel q).1.Stays Access.Inside := by
  induction fuel with
  | zero => simp [readParams]
  | succ fuel ih =>
    have hzero : (m.bigShort (q + 2)).toNat = 0 := by simp [hplen]
    rw [readParams, if_neg (by omega)]
    simp only [if_neg hknown, hzero, pad4_zero, Nat.add_zero]
    exact fun h => ih (Walked.stays_before.mp h).2

/-- The cookie is copied as it should if its parameter has its header and ends with the chunk. -/
theorem paramAccesses_inside (hin : q + 4 ≤ stop) (hstop : stop ≤ size) (hsize : size ≤ 65536) :
    (∀ a ∈ paramAccesses m size stop q, a.Inside) ↔
      (m.bigShort q = 7 → 4 ≤ (m.bigShort (q + 2)).toNat ∧ q + (m.bigShort (q + 2)).toNat ≤ stop) := by
  have hplen := (m.bigShort (q + 2)).isLt
  have hcookie : q + 4 + ((m.bigShort (q + 2)).toNat + 2 ^ 64 - 4) % 2 ^ 64 ≤ stop ↔
      4 ≤ (m.bigShort (q + 2)).toNat ∧ q + (m.bigShort (q + 2)).toNat ≤ stop := by
    omega
  unfold paramAccesses
  split_ifs with h7
  · simp only [forall_mem_append, forall_mem_cons, Access.inside_read, Access.inside_copy, hcookie, h7, true_imp_iff]
    exact ⟨fun h => h.2.1.1, fun h => ⟨⟨by omega, by omega, by simp⟩, ⟨h, le_rfl⟩, by simp⟩⟩
  · simp only [h7, false_imp_iff, iff_true, append_nil, forall_mem_cons, Access.inside_read]
    exact ⟨by omega, by omega, by simp⟩

theorem params_of_stays (hstop : stop ≤ size) (hsize : size ≤ 65536)
    (h : (readParams m size stop fuel q).1.Stays Access.Inside) :
    Params m stop q (readParams m size stop fuel q).2 := by
  induction fuel generalizing q with
  | zero => simp [readParams] at h
  | succ fuel ih =>
    have hall := h
    rw [readParams] at h ⊢
    split_ifs at h ⊢ with hend hrefused
    · exact .nil hend
    · exact .refused (by omega) hrefused
    · obtain ⟨hreads, hrest⟩ := Walked.stays_before.mp h
      refine .param (by omega) hrefused (fun h => not_stays_readParams h (by omega) hrefused _ hall) ?_ (ih hrest)
      exact (paramAccesses_inside (by omega) hstop hsize).mp hreads

theorem stays_of_params {ps : List InitParam} (h : Params m stop q ps) (hstop : stop ≤ size)
    (hsize : size ≤ 65536) (hpos : 0 < fuel) (hfuel : stop < q + fuel) :
    (readParams m size stop fuel q).1.Stays Access.Inside ∧ (readParams m size stop fuel q).2 = ps := by
  induction h generalizing fuel with
  | nil hend =>
    obtain ⟨fuel, rfl⟩ := Nat.exists_eq_succ_of_ne_zero hpos.ne'
    simp [readParams, hend]
  | refused hin hrefused =>
    obtain ⟨fuel, rfl⟩ := Nat.exists_eq_succ_of_ne_zero hpos.ne'
    rw [readParams, if_neg (by omega), if_pos hrefused]
    refine ⟨Walked.stays_done.mpr ((paramAccesses_inside hin hstop hsize).mpr fun h7 => ?_), rfl⟩
    exact absurd (by rw [h7]; rfl) hrefused.1
  | @param q ps hin hknown hplen hcookie _ ih =>
    obtain ⟨fuel, rfl⟩ := Nat.exists_eq_succ_of_ne_zero hpos.ne'
    have hlen : 0 < (m.bigShort (q + 2)).toNat := by
      rw [Nat.pos_iff_ne_zero]
      exact fun h => hplen (eq_of_toNat_eq h)
    have hpad : 4 ≤ pad4 (m.bigShort (q + 2)).toNat := by unfold pad4; omega
    obtain ⟨hrest, hps⟩ := @ih fuel (by omega) (by omega)
    rw [readParams, if_neg (by omega), if_neg hknown]
    exact ⟨Walked.stays_before.mpr ⟨(paramAccesses_inside hin hstop hsize).mpr hcookie, hrest⟩, by simp only [hps]⟩

/-! ## The association -/

/-- A fragment goes into the slot only if it fits. -/
theorem length_add (r : Reassembly) (data : List QByte) (h : r.buf.length ≤ bufSize) :
    (r.add data).buf.length ≤ bufSize := by
  unfold Reassembly.add
  split_ifs with hbig
  · exact h
  · simp only [length_append]
    omega

theorem length_start (r : Reassembly) (dc : DataChunk) (h : r.buf.length ≤ bufSize) :
    (r.start dc).buf.length ≤ bufSize := by
  unfold Reassembly.start
  split_ifs
  · exact Nat.zero_le _
  · exact h

theorem advanceCtsn_r (k : ℕ) (s : Assoc) : (s.advanceCtsn k).r = s.r := by
  induction k generalizing s with
  | zero => rfl
  | succ k ih =>
    unfold Assoc.advanceCtsn
    split_ifs
    · rw [ih]
    · rfl

theorem transmit_r (s : Assoc) (length : ℕ) : (s.transmit length).r = s.r := by
  unfold Assoc.transmit
  dsimp only
  split_ifs <;> first | rfl | exact advanceCtsn_r _ _

theorem initParams_r (ps : List InitParam) (s : Assoc) : (Assoc.initParams ps s).1.r = s.r := by
  induction ps generalizing s with
  | nil => rfl
  | cons p ps ih =>
    unfold Assoc.initParams
    split_ifs <;> simp [ih]

theorem skipTsns_r (count : ℕ) (s : Assoc) : (s.skipTsns count).r = s.r := by
  induction count generalizing s with
  | zero => rfl
  | succ count ih => rw [Assoc.skipTsns, ih]

/-- The slot stays within its buffer, whatever the chunk. -/
theorem chunk_buf_le (c : Chunk) {s : Assoc} (h : s.r.buf.length ≤ bufSize) : (s.chunk c).1.r.buf.length ≤ bufSize := by
  cases c with
  | data dc odd =>
    simp only [Assoc.chunk, Assoc.data]
    split
    · rw [Assoc.take_r]
      exact length_add _ _ (length_start _ _ h)
    · exact h
  | init isack tsn ps =>
    have hr : (s.init isack tsn ps).1.r = s.r := by
      unfold Assoc.init
      dsimp only
      split_ifs <;> simp [transmit_r, initParams_r]
    rwa [Assoc.chunk, hr]
  | forwardTsn tsn =>
    have hr : (s.forwardTsn tsn).r = s.r := by
      unfold Assoc.forwardTsn
      dsimp only
      split_ifs
      · rfl
      · exact skipTsns_r _ _
    rwa [Assoc.chunk, hr]
  | _ => exact h

theorem foldl_transmit_r (ls : List ℕ) (s : Assoc) : (ls.foldl Assoc.transmit s).r = s.r := by
  induction ls generalizing s with
  | nil => rfl
  | cons l ls ih => rw [foldl_cons, ih, transmit_r]

theorem round_buf_le (c : Chunk) (h : s.r.buf.length ≤ bufSize) : (env.round s c).1.r.buf.length ≤ bufSize := by
  have hchunk := chunk_buf_le c h
  unfold Env.round
  split
  · rename_i s' d ret heq
    rw [heq] at hchunk
    split_ifs
    · rwa [foldl_transmit_r]
    · exact hchunk
  · rename_i s' ret heq
    rwa [heq] at hchunk

/-- A message that a DATA chunk completes fits into the buffer of the slot. -/
theorem delivery_length_le {dc : DataChunk} {d : Delivery} {odd : Bool} (hs : s.r.buf.length ≤ bufSize)
    (h : (s.data dc odd).2.1 = some d) : d.data.length ≤ bufSize := by
  unfold Assoc.data at h
  dsimp only at h
  split at h
  · by_cases hend : dc.ending
    · rw [(Assoc.take_of_ending hend).2, Assoc.take_r] at h
      rw [(Reassembly.deliver_eq_some h).2]
      exact length_add _ _ (length_start _ _ hs)
    · rw [(Assoc.take_of_not_ending hend).2] at h
      cases h
  · cases h

/-! ## Chunks are read as they should, or not -/

theorem dataAccesses_inside (hs : s.r.buf.length ≤ bufSize) (h16 : 16 ≤ clen) (hin : p + clen ≤ size) :
    (∀ a ∈ dataAccesses m size debug s p clen, a.Inside) ↔
      ∀ d, (s.data (dataAt m p clen) false).2.1 = some d → d.ppid ≠ sctpPpidData → Whole debug d.data := by
  have hcopy : ∀ a ∈ (if s.fate (dataAt m p clen) = .taken ∧
      (s.r.start (dataAt m p clen)).buf.length + (clen - 16) ≤ bufSize then
      [Access.copy (p + 16) (clen - 16) (p + clen) (bufSize - (s.r.start (dataAt m p clen)).buf.length)] else []),
      a.Inside := by
    intro a ha
    split_ifs at ha with hfits
    · rw [mem_singleton.mp ha, Access.inside_copy]
      omega
    · cases ha
  have hread : (Access.read (p + 1) 15 size).Inside := by
    rw [Access.inside_read]
    omega
  simp only [dataAccesses, forall_mem_cons, forall_mem_append, hread, true_and]
  rw [and_iff_right hcopy]
  cases hd : (s.data (dataAt m p clen) false).2.1 with
  | none => simp
  | some d =>
    have hlen := delivery_length_le hs hd
    simp only [Option.elim, deliveryAccesses, Option.some.injEq, forall_eq']
    split_ifs with hdata
    · simp only [mem_singleton, forall_eq, Access.inside_copy, hdata, ne_eq, not_true_eq_false, false_imp_iff, iff_true]
      exact ⟨by omega, hlen⟩
    · rw [decodeDcep_inside]
      simp [hdata]

theorem parsed_of_stays (hs : s.r.buf.length ≤ bufSize) (hin : p + clen ≤ size) (hsize : size ≤ 65536)
    (h : (readChunk m size debug s fuel p clen).1.Stays Access.Inside) :
    Parsed m size debug s p clen (readChunk m size debug s fuel p clen).2 := by
  unfold readChunk at h ⊢
  unfold Parsed
  cases htype : chunkType (m p) with
  | data =>
    simp only [htype] at h ⊢
    split_ifs at h ⊢ with h16
    · exact ⟨rfl, (dataAccesses_inside hs h16 hin).mp (Walked.stays_done.mp h)⟩
    · rfl
  | init isack =>
    simp only [htype] at h ⊢
    by_cases h20 : 20 ≤ clen
    · rw [if_pos h20] at h ⊢
      rw [if_pos h20]
      exact ⟨_, params_of_stays hin hsize (Walked.stays_before.mp (Walked.stays_andThen.mp h).1).2, rfl⟩
    · rw [if_neg h20, if_neg h20]
  | error =>
    simp only [htype] at h ⊢
    exact ⟨trivial, causes_of_stays h⟩
  | forwardTsn =>
    simp only
    split_ifs <;> rfl
  | _ => simp only

theorem stays_of_parsed {c : Chunk} (h : Parsed m size debug s p clen c) (hs : s.r.buf.length ≤ bufSize)
    (hp : p % 4 = 0) (h4 : 4 ≤ clen) (hin : p + clen ≤ size) (hpacket : size % 4 = 0) (hsize : size ≤ 65536)
    (hfuel : clen < fuel) :
    (readChunk m size debug s fuel p clen).1.Stays Access.Inside ∧ (readChunk m size debug s fuel p clen).2 = c := by
  unfold Parsed at h
  unfold readChunk
  cases htype : chunkType (m p) with
  | data =>
    simp only [htype] at h ⊢
    split_ifs at h ⊢ with h16
    · exact ⟨Walked.stays_done.mpr ((dataAccesses_inside hs h16 hin).mpr h.2), h.1.symm⟩
    · exact ⟨by simp, h.symm⟩
  | init isack =>
    simp only [htype] at h ⊢
    by_cases h20 : 20 ≤ clen
    · rw [if_pos h20] at h ⊢
      obtain ⟨ps, hps, rfl⟩ := h
      obtain ⟨hparams, rfl⟩ := @stays_of_params _ _ fuel _ _ _ hps hin hsize (by omega) (by omega)
      refine ⟨Walked.stays_andThen.mpr ⟨Walked.stays_before.mpr ⟨?_, hparams⟩, ?_⟩, rfl⟩
      · simp
        omega
      · rw [Walked.stays_done]
        split_ifs
        · simp
        · simp
          omega
    · rw [if_neg h20] at h ⊢
      exact ⟨by simp, h.symm⟩
  | error =>
    simp only [htype] at h ⊢
    exact ⟨stays_of_causes h.2 (by omega) hpacket (by omega) (by omega), h.1.symm⟩
  | forwardTsn =>
    simp only [htype] at h ⊢
    split_ifs at h ⊢ with h8
    · refine ⟨?_, h.symm⟩
      simp
      omega
    · exact ⟨by simp, h.symm⟩
  | sack =>
    simp only [htype] at h ⊢
    refine ⟨?_, h.symm⟩
    rw [Walked.stays_done]
    split_ifs
    · simp
      omega
    · simp
  | ping =>
    simp only [htype] at h ⊢
    exact ⟨by simp, h.symm⟩
  | _ =>
    simp only [htype] at h ⊢
    exact ⟨by simp, h.symm⟩

/-- The next chunk begins further on, in the packet, at a multiple of four bytes. -/
theorem advance_spec (m : Mem QByte) (clen : ℕ) (hp : p % 4 = 0) (h4 : 4 ≤ clen) (hin : p + clen ≤ size)
    (hpacket : size % 4 = 0) (hsize : size ≤ 65536) (h0 : 0 < p) :
    4 ≤ pad4 (advance m size p clen) ∧ p + pad4 (advance m size p clen) ≤ size ∧
      (p + pad4 (advance m size p clen)) % 4 = 0 := by
  have hadv : advance m size p clen = clen ∨ advance m size p clen = size - p := by
    unfold advance
    split
    · split_ifs
      · exact .inr (by omega)
      · exact .inl rfl
    · exact .inl rfl
  unfold pad4
  omega

theorem sound_of_stays (hs : s.r.buf.length ≤ bufSize) (hp : p % 4 = 0) (h0 : 0 < p) (hpacket : size % 4 = 0)
    (hsize : size ≤ 65536) (h : (chunks env m size fuel p s).Stays Access.Inside) : Sound env m size p s := by
  induction fuel generalizing p s with
  | zero => simp [chunks] at h
  | succ fuel ih =>
    by_cases hend : size < p + 4
    · exact .nil hend
    by_cases hbad : size < p + (m.bigShort (p + 2)).toNat ∨ (m.bigShort (p + 2)).toNat < 4
    · exact .corrupt (by omega) hbad
    rw [chunks, if_neg hend] at h
    simp only [if_neg hbad] at h
    obtain ⟨hread, hrest⟩ := Walked.stays_andThen.mp h
    have hparsed := parsed_of_stays hs (by omega) hsize (Walked.stays_before.mp hread).2
    obtain ⟨-, -, hnext⟩ := advance_spec m (m.bigShort (p + 2)).toNat hp (by omega) (by omega) hpacket hsize h0
    split_ifs at hrest with hret
    · exact .returns (by omega) (by omega) hparsed hret
    · refine .chunk (by omega) (by omega) hparsed (by simpa using hret) ?_
      exact ih (round_buf_le _ hs) hnext (by omega) hrest

theorem stays_of_sound (h : Sound env m size p s) (hs : s.r.buf.length ≤ bufSize) (hp : p % 4 = 0) (h0 : 0 < p)
    (hpacket : size % 4 = 0) (hsize : size ≤ 65536) (hfuel : size + 1 < p + fuel) (hpos : 0 < fuel) :
    (chunks env m size fuel p s).Stays Access.Inside := by
  induction h generalizing fuel with
  | nil hend =>
    obtain ⟨fuel, rfl⟩ := Nat.exists_eq_succ_of_ne_zero hpos.ne'
    simp [chunks, hend]
  | corrupt h4 hbad =>
    obtain ⟨fuel, rfl⟩ := Nat.exists_eq_succ_of_ne_zero hpos.ne'
    rw [chunks, if_neg (by omega)]
    simp only [if_pos hbad, Walked.stays_done, mem_singleton, forall_eq, Access.inside_read]
    omega
  | @returns p s c hlen hin hparsed hret =>
    obtain ⟨fuel, rfl⟩ := Nat.exists_eq_succ_of_ne_zero hpos.ne'
    have hgood : ¬ (size < p + (m.bigShort (p + 2)).toNat ∨ (m.bigShort (p + 2)).toNat < 4) := by omega
    have hclen : (m.bigShort (p + 2)).toNat < fuel := by omega
    obtain ⟨hread, rfl⟩ := stays_of_parsed hparsed hs hp hlen hin hpacket hsize hclen
    rw [chunks, if_neg (by omega)]
    simp only [if_neg hgood, if_pos hret]
    refine Walked.stays_andThen.mpr ⟨Walked.stays_before.mpr ⟨?_, hread⟩, by simp⟩
    simp
    omega
  | @chunk p s c hlen hin hparsed hret _ ih =>
    obtain ⟨fuel, rfl⟩ := Nat.exists_eq_succ_of_ne_zero hpos.ne'
    have hgood : ¬ (size < p + (m.bigShort (p + 2)).toNat ∨ (m.bigShort (p + 2)).toNat < 4) := by omega
    have hclen : (m.bigShort (p + 2)).toNat < fuel := by omega
    obtain ⟨hread, rfl⟩ := stays_of_parsed hparsed hs hp hlen hin hpacket hsize hclen
    obtain ⟨hmove, hend, hnext⟩ := advance_spec m (m.bigShort (p + 2)).toNat hp hlen hin hpacket hsize h0
    rw [chunks, if_neg (by omega)]
    simp only [if_neg hgood, hret]
    refine Walked.stays_andThen.mpr ⟨Walked.stays_before.mpr ⟨?_, hread⟩, ?_⟩
    · simp
      omega
    · rw [if_neg Bool.false_ne_true]
      exact ih (round_buf_le _ hs) hnext (by omega) (by omega) (by omega)

/-- `SCTP_Decode` ends, and reads and copies only what it should, just if the chunks of an accepted packet are sound. -/
theorem decode_stays_iff (hs : s.r.buf.length ≤ bufSize) (hsize : size ≤ 65536) :
    (∃ fuel, (decode env ports m size s fuel).Stays Access.Inside) ↔
      (Accepted ports m size → Sound env m size 12 s) := by
  unfold decode
  by_cases hacc : Accepted ports m size
  · simp only [hacc, if_true, true_imp_iff]
    have hrunt := hacc.runt
    constructor
    · rintro ⟨fuel, h⟩
      exact sound_of_stays hs rfl (by omega) hacc.padded hsize (Walked.stays_before.mp h).2
    · intro h
      refine ⟨size, Walked.stays_before.mpr ⟨?_, stays_of_sound h hs rfl (by omega) hacc.padded hsize (by omega) (by omega)⟩⟩
      simp
      omega
  · simp only [hacc, if_false, false_imp_iff, iff_true]
    refine ⟨0, ?_⟩
    rw [Walked.stays_done]
    split_ifs with hrunt
    · simp
    · simp
      omega

/-- An association that is silent behind the parser. -/
def quiet : Env := ⟨false, fun _ _ => (false, [])⟩

def somePorts : Ports := ⟨0x8913, 0x8813, 0x04030201⟩

/-- A packet with an ERROR chunk, of one cause without a value. -/
def errorPacket : Mem QByte :=
  .ofPacket [0x13, 0x88, 0x13, 0x89, 1, 2, 3, 4, 0x82, 0xb1, 0x13, 0x5a, 9, 0, 0, 8, 0, 1, 0, 4]

theorem errorPacket_stays : Accepted somePorts errorPacket 20 ∧
    ∃ fuel, (decode quiet somePorts errorPacket 20 .fresh fuel).Stays Access.Inside := by
  refine ⟨by decide +kernel, (decode_stays_iff (by decide) (by decide)).mpr fun _ => ?_⟩
  have hcauses : Causes errorPacket 20 false 16 4 :=
    .cause (by decide) (by decide) (by decide) (by decide) (.short (by decide))
  exact .chunk (c := .other) (by decide) (by decide) ⟨rfl, hcauses⟩ rfl (.nil (by decide))

/-- The same cause with a length of 0. -/
def endlessPacket : Mem QByte :=
  .ofPacket [0x13, 0x88, 0x13, 0x89, 1, 2, 3, 4, 0xe3, 0xb4, 0xc8, 0x38, 9, 0, 0, 8, 0, 0, 0, 0]

theorem endlessPacket_not_stays : Accepted somePorts endlessPacket 20 ∧
    ¬ ∃ fuel, (decode quiet somePorts endlessPacket 20 .fresh fuel).Stays Access.Inside := by
  have hacc : Accepted somePorts endlessPacket 20 := by decide +kernel
  have hcauses : ¬ Causes endlessPacket 20 false 16 4 := by
    intro h
    cases h with
    | short h4 => exact absurd h4 (by decide)
    | refused _ hlong => exact absurd hlong (by decide)
    | cause _ _ hcl => exact hcl rfl
  refine ⟨hacc, ?_⟩
  rintro ⟨fuel, h⟩
  rw [decode, if_pos hacc] at h
  cases sound_of_stays (by decide) rfl (by decide) rfl (by decide) (Walked.stays_before.mp h).2 with
  | nil hend => exact absurd hend (by decide)
  | corrupt _ hbad => exact absurd hbad (by decide)
  | returns _ _ hparsed => exact hcauses hparsed.2
  | chunk _ _ hparsed => exact hcauses hparsed.2

end SctpDecode

end FteQuake
