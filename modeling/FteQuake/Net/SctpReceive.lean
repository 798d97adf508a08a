import FteQuake.Common.Sizebuf
import FteQuake.Lib.SerialWindow

/-!
# The receiving side of an SCTP association

`SCTP_Decode` of `net_ice.c` and the part of `SCTP_Transmit` that moves the cumulative TSN. The
receiver has one slot in which fragments are put together, and a ring of marks for the TSNs above the
cumulative one whose messages are complete.

A `Sender` numbers its fragments by positions from 1 on. `Safe` says what a step may do to a conforming
sender's messages: none is handed over twice or with other bytes than its own, a fragment is dropped
as a duplicate only after it was taken or skipped, and the cumulative TSN passes only what is complete
or skipped. `receive_safe` is the run lemma, for runs that stay clear of three places where the code
goes wrong (`Meets`).
-/

namespace FteQuake

open List Option Nat

/-- `SCTP_RCVSIZE`, the number of marks. -/
def sctpRcvsize : ℕ := 2048

/-- `SCTP_PPID_DCEP`. -/
def sctpPpidDcep : BitVec 32 := 50

/-- `SCTP_PPID_DATA`. -/
def sctpPpidData : BitVec 32 := 53

namespace Sctp

/-- `struct sctp_chunk_data_s` and the bytes after it. -/
structure DataChunk where
  flags : BitVec 8
  tsn : BitVec 32
  sid : BitVec 16
  seq : BitVec 16
  ppid : BitVec 32
  data : List QByte
  deriving DecidableEq, Repr

/-- The flag of the first fragment. -/
def DataChunk.beginning (dc : DataChunk) : Bool := dc.flags &&& 2 ≠ 0

/-- The flag of the last fragment. -/
def DataChunk.ending (dc : DataChunk) : Bool := dc.flags &&& 1 ≠ 0

/-- A parameter of an INIT chunk. -/
structure InitParam where
  ptype : ℕ
  value : List QByte
  deriving DecidableEq, Repr

/-- The chunks that matter to the receiving side. For a DATA chunk, `odd` tells that
`ReadGamePacket` leaves `net_message.cursize` at another value, if it is called. -/
inductive Chunk
  | data (dc : DataChunk) (odd : Bool)
  | init (isack : Bool) (tsn : BitVec 32) (params : List InitParam)
  | cookieEcho
  | cookieAck
  | forwardTsn (tsn : BitVec 32)
  | other
  deriving DecidableEq, Repr

/-- The slot `i.r`, its `buf` up to `size`. -/
structure Reassembly where
  firsttns : BitVec 32
  tsn : BitVec 32
  ppid : BitVec 32
  sid : BitVec 16
  seq : BitVec 16
  toobig : Bool
  buf : List QByte
  deriving DecidableEq, Repr

/-- `sizeof(i.r.buf)`. -/
def bufSize : ℕ := 65536

/-- `sctp_t`, as far as the receiving side reads it. The mark of a TSN is the bit `tsn&7` of the byte
`(tsn>>3)%sizeof(received)`, which is the bit of number `tsn % SCTP_RCVSIZE`. -/
structure Assoc where
  peerhasfwdtsn : Bool
  cookie : Option (List QByte)
  writable : Bool
  ackneeded : ℕ
  ctsn : BitVec 32
  htsn : BitVec 32
  received : ℕ → Bool
  r : Reassembly

/-- A new association, all zero. -/
def Assoc.fresh : Assoc where
  peerhasfwdtsn := false
  cookie := none
  writable := false
  ackneeded := 0
  ctsn := 0
  htsn := 0
  received := fun _ => false
  r := ⟨0, 0, 0, 0, 0, false, []⟩

/-- A message as it leaves the slot, under the TSN of its first fragment. -/
structure Delivery where
  tsn : BitVec 32
  ppid : BitVec 32
  data : List QByte
  deriving DecidableEq, Repr

/-- The ways a DATA chunk can go. -/
inductive Fate
  | future
  | preCumulative
  | dupe
  | mismatch
  | taken
  deriving DecidableEq, Repr

/-- What can happen to an association. -/
inductive Event
  | chunk (c : Chunk)
  | transmit (length : ℕ)

/-! ## The code -/

/-- The cell of the mark of a TSN. -/
abbrev cell (t : BitVec 32) : ℕ := Serial.cell sctpRcvsize t

/-- The loop that marks the `u` TSNs from `first` on. -/
def markAll (received : ℕ → Bool) (first : BitVec 32) : ℕ → ℕ → Bool
  | 0 => received
  | u + 1 => markAll (Function.update received (cell (first + BitVec.ofNat 32 u)) true) first u

namespace Reassembly

/-- The slot that a fragment goes to: a first fragment starts it anew. -/
def start (r : Reassembly) (dc : DataChunk) : Reassembly :=
  if dc.beginning then ⟨dc.tsn, dc.tsn, dc.ppid, dc.sid, dc.seq, false, []⟩ else r

/-- A fragment at the end of the slot. -/
def add (r : Reassembly) (data : List QByte) : Reassembly :=
  if bufSize < r.buf.length + data.length then { r with tsn := r.tsn + 1, toobig := true }
  else { r with tsn := r.tsn + 1, buf := r.buf ++ data }

/-- What is handed over of a slot that is complete: to `ReadGamePacket`, or to `SCTP_DecodeDCEP`. -/
def deliver (r : Reassembly) : Option Delivery :=
  if r.toobig then none
  else if r.ppid = sctpPpidData ∨ r.ppid = sctpPpidDcep then some ⟨r.firsttns, r.ppid, r.buf⟩
  else none

end Reassembly

namespace Assoc

variable (s : Assoc)

/-- The checks of a DATA chunk. -/
def fate (dc : DataChunk) : Fate :=
  let adv := (dc.tsn - s.ctsn).toInt
  if sctpRcvsize ≤ adv then .future
  else if adv ≤ 0 then .preCumulative
  else if s.received (cell dc.tsn) then .dupe
  else if dc.beginning then .taken
  else if s.r.tsn ≠ dc.tsn ∨ s.r.ppid ≠ dc.ppid then .mismatch
  else .taken

/-- A fragment goes into the slot. -/
def take (dc : DataChunk) : Assoc × Option Delivery :=
  let adv := dc.tsn - s.ctsn
  let r := (s.r.start dc).add dc.data
  let s := { s with htsn := if s.htsn < adv then adv else s.htsn, r := r }
  if dc.ending then
    ({ s with received := markAll s.received r.firsttns (r.tsn - r.firsttns).toNat }, r.deliver)
  else (s, none)

/-- The DATA case of `SCTP_Decode`; the flag tells that the function returns. -/
def data (dc : DataChunk) (odd : Bool) : Assoc × Option Delivery × Bool :=
  let s := { s with ackneeded := s.ackneeded + 1 }
  match s.fate dc with
  | .taken =>
    let (s, d) := s.take dc
    (s, d, odd && d.any (·.ppid = sctpPpidData))
  | _ => (s, none, false)

/-- The first loop of `SCTP_Transmit`, at most `k` times around. -/
def advanceCtsn : ℕ → Assoc → Assoc
  | 0, s => s
  | k + 1, s =>
    if s.received (cell (s.ctsn + 1)) then
      advanceCtsn k
        { s with
          received := Function.update s.received (cell (s.ctsn + 1)) false
          ctsn := s.ctsn + 1
          htsn := s.htsn - 1 }
    else s

/-- `SCTP_Transmit`. The loop runs while `htsn`, which goes down each time. -/
def transmit (length : ℕ) : Assoc :=
  if 65536 < length then s
  else
    let s := s.advanceCtsn s.htsn.toNat
    if ¬ s.writable then s
    else if 2 ≤ s.ackneeded then { s with ackneeded := 0 }
    else s

/-- The parameters of an INIT chunk; the flag tells that the function returns. -/
def initParams : List InitParam → Assoc → Assoc × Bool
  | [], s => (s, false)
  | p :: ps, s =>
    if p.ptype = 7 then initParams ps { s with cookie := some p.value }
    else if p.ptype = 32773 ∨ p.ptype = 32776 then initParams ps s
    else if p.ptype = 49152 then initParams ps { s with peerhasfwdtsn := true }
    else if p.ptype &&& 0x8000 = 0 then (s, true)
    else initParams ps s

/-- The INIT and INITACK case of `SCTP_Decode`. -/
def init (isack : Bool) (tsn : BitVec 32) (params : List InitParam) : Assoc × Bool :=
  let (s, ret) := initParams params { s with ctsn := tsn - 1, htsn := 0 }
  if ret then (s, true)
  else if isack ∧ s.cookie.isSome then (s.transmit 0, false)
  else (s, false)

/-- The loop of the FORWARDTSN case. -/
def skipTsns : ℕ → Assoc → Assoc
  | 0, s => s
  | n + 1, s =>
    skipTsns n
      { s with
        ctsn := s.ctsn + 1
        received := Function.update s.received (cell (s.ctsn + 1)) false
        htsn := if s.htsn ≠ 0 then s.htsn - 1 else s.htsn
        ackneeded := s.ackneeded + 1 }

/-- The FORWARDTSN case of `SCTP_Decode`. -/
def forwardTsn (tsn : BitVec 32) : Assoc :=
  let count := tsn - s.ctsn
  if count.toInt < 0 then s else s.skipTsns (min count.toNat 1024)

/-- One round of the loop of `SCTP_Decode`; the flag tells that the function returns. -/
def chunk : Chunk → Assoc × Option Delivery × Bool
  | .data dc odd => s.data dc odd
  | .init isack tsn params => ((s.init isack tsn params).1, none, (s.init isack tsn params).2)
  | .cookieEcho | .cookieAck => ({ s with writable := true }, none, false)
  | .forwardTsn tsn => (s.forwardTsn tsn, none, false)
  | .other => (s, none, false)

/-- `SCTP_Decode`, for the chunks that its loop gets to. -/
def decode : List Chunk → Assoc → Assoc × List Delivery
  | [], s => (if 5 ≤ s.ackneeded then s.transmit 0 else s, [])
  | c :: cs, s =>
    let (s', d, ret) := s.chunk c
    if ret then (s', d.toList)
    else
      let (s'', ds) := decode cs s'
      (s'', d.toList ++ ds)

/-! ## Steps -/

/-- One event. -/
def step : Event → Assoc × Option Delivery
  | .chunk c => ((s.chunk c).1, (s.chunk c).2.1)
  | .transmit length => (s.transmit length, none)

end Assoc

/-! ## The sender -/

/-- A message of the sender: the position of its first fragment, and its fragments. -/
structure UserMessage where
  first : ℕ
  ppid : BitVec 32
  parts : List (List QByte)
  deriving DecidableEq, Repr

/-- The positions of a message. -/
def UserMessage.Holds (m : UserMessage) (p : ℕ) : Prop :=
  m.first ≤ p ∧ p < m.first + m.parts.length

/-- A conforming sender. The fragment at position `p` has the TSN `origin + p`, and a TSN is used
once. -/
structure Sender where
  origin : BitVec 32
  msgs : UserMessage → Prop
  first_pos : ∀ m, msgs m → 0 < m.first
  nonempty : ∀ m, msgs m → m.parts ≠ []
  once : ∀ m m' p p', msgs m → msgs m' → m.Holds p → m'.Holds p' →
    Serial.num origin p = Serial.num origin p' → p = p' ∧ m = m'

namespace Sender

variable (snd : Sender)

/-- The TSN of a position. -/
abbrev tsn (p : ℕ) : BitVec 32 := Serial.num snd.origin p

/-- A message as it should be handed over. -/
def delivery (m : UserMessage) : Delivery := ⟨snd.tsn m.first, m.ppid, m.parts.flatten⟩

/-- The chunk is the fragment of a message at a position. -/
structure Fragment (m : UserMessage) (p : ℕ) (dc : DataChunk) : Prop where
  msg : snd.msgs m
  holds : m.Holds p
  tsn_eq : dc.tsn = snd.tsn p
  beginning_iff : dc.beginning = true ↔ p = m.first
  ending_iff : dc.ending = true ↔ p + 1 = m.first + m.parts.length
  ppid_eq : dc.ppid = m.ppid
  data_eq : m.parts[p - m.first]? = some dc.data

/-- The position belongs to a message all of whose fragments are in the list. -/
def Complete (taken : List ℕ) (p : ℕ) : Prop :=
  ∃ m, snd.msgs m ∧ m.Holds p ∧ ∀ q, m.Holds q → q ∈ taken

end Sender

/-! ## Runs -/

/-- What can happen, the TSNs given by their positions. A FORWARD-TSN chunk skips the positions up to
`p`, and every INIT chunk carries the initial TSN. -/
inductive Op
  | data (p : ℕ) (dc : DataChunk) (odd : Bool)
  | init (isack : Bool) (params : List InitParam)
  | cookieEcho
  | cookieAck
  | forwardTsn (p : ℕ)
  | other
  | transmit (length : ℕ)

/-- The event of an operation. -/
def Op.event (snd : Sender) : Op → Event
  | data _ dc odd => .chunk (.data dc odd)
  | init isack params => .chunk (.init isack (snd.tsn 1) params)
  | cookieEcho => .chunk .cookieEcho
  | cookieAck => .chunk .cookieAck
  | forwardTsn p => .chunk (.forwardTsn (snd.tsn p))
  | other => .chunk .other
  | transmit length => .transmit length

/-- An association and what has happened to it: whether an INIT was seen, by how much the cumulative
TSN has moved since the last one, the positions of the fragments that were taken, the last position
that was skipped, and what was handed over. -/
structure World where
  s : Assoc
  started : Bool
  cum : ℕ
  taken : List ℕ
  skipped : ℕ
  handed : List Delivery

/-- A new association. -/
def World.fresh : World := ⟨.fresh, false, 0, [], 0, []⟩

/-- An operation, with the record of it. -/
def World.exec (snd : Sender) (w : World) (op : Op) : World where
  s := (w.s.step (op.event snd)).1
  started := w.started || op matches .init ..
  cum := match op with
    | .init .. => 0
    | _ => w.cum + ((w.s.step (op.event snd)).1.ctsn - w.s.ctsn).toNat
  taken := match op with
    | .data p dc _ => if w.s.fate dc = .taken then p :: w.taken else w.taken
    | _ => w.taken
  skipped := match op with
    | .forwardTsn p => max w.skipped p
    | _ => w.skipped
  handed := w.handed ++ (w.s.step (op.event snd)).2.toList

/-- The DATA chunks are the sender's. -/
def Sent (snd : Sender) : Op → Prop
  | .data p dc _ => ∃ m, snd.Fragment m p dc
  | _ => True

/-- The worlds that are reached by operations that meet a condition. -/
inductive Run (snd : Sender) (C : World → Op → Prop) : World → Prop
  | fresh : Run snd C .fresh
  | step {w : World} (op : Op) : Run snd C w → Sent snd op → C w op → Run snd C (w.exec snd op)

/-- What an operation may do. -/
structure Safe (snd : Sender) (w : World) (op : Op) : Prop where
  once : ((w.exec snd op).handed.map Delivery.tsn).Nodup
  whole : ∀ d ∈ (w.exec snd op).handed, ∃ m, snd.msgs m ∧ d = snd.delivery m
  discard : ∀ p dc odd, op = .data p dc odd → w.s.fate dc = .preCumulative ∨ w.s.fate dc = .dupe →
    p ∈ w.taken ∨ p ≤ w.skipped
  passed : ∀ p, 0 < p → p ≤ (w.exec snd op).cum →
    snd.Complete (w.exec snd op).taken p ∨ p ≤ (w.exec snd op).skipped

/-- Less than half of all TSNs apart. -/
def Near (c p : ℕ) : Prop := p < c + 2 ^ 31 ∧ c < p + 2 ^ 31

/-- A fragment that ends a message in the slot of which the cumulative TSN has passed a part. -/
def Straddles (w : World) (p : ℕ) (dc : DataChunk) (m : UserMessage) : Prop :=
  m.first ≤ w.cum ∧ w.cum < p ∧ dc.ending = true ∧ w.s.r.tsn = dc.tsn

/-- The condition on a step. -/
def Meets (snd : Sender) (w : World) : Op → Prop
  | .data p dc _ => w.started = true ∧ Near w.cum p ∧
    (w.taken = [] → dc.tsn = 0 → dc.ppid = 0 → dc.beginning = true) ∧
    ∀ m, snd.Fragment m p dc → ¬ Straddles w p dc m
  | .forwardTsn p => w.started = true ∧ Near w.cum p
  | .init .. => w.cum = 0
  | _ => True

/-! ## The invariant -/

/-- The slot holds the first `i` fragments of a message. -/
structure Slot (snd : Sender) (taken : List ℕ) (r : Reassembly) (m : UserMessage) (i : ℕ) : Prop where
  msg : snd.msgs m
  pos : 0 < i
  le : i ≤ m.parts.length
  firsttns : r.firsttns = snd.tsn m.first
  tsn : r.tsn = snd.tsn (m.first + i)
  ppid : r.ppid = m.ppid
  mem : ∀ q, m.first ≤ q → q < m.first + i → q ∈ taken
  buf : r.toobig = false → r.buf = (m.parts.take i).flatten

/-- The part of the invariant that moves with the cumulative TSN: the marks above it are those of
complete messages, and the messages that were handed over are marked where it has not passed. -/
structure Marked (snd : Sender) (taken : List ℕ) (handed : List Delivery) (cum : ℕ)
    (received : ℕ → Bool) : Prop where
  complete : ∀ p, cum < p → p ≤ cum + sctpRcvsize → received (cell (snd.tsn p)) = true →
    snd.Complete taken p
  handed : ∀ d ∈ handed, ∃ m, snd.msgs m ∧ d = snd.delivery m ∧
    ∀ p, m.Holds p → cum < p → p < cum + sctpRcvsize ∧ received (cell (snd.tsn p)) = true

/-- What holds in every world. -/
structure Inv (snd : Sender) (w : World) : Prop where
  idle : w.started = false → w.s.htsn = 0 ∧ w.cum = 0
  ctsn : w.started = true → w.s.ctsn = snd.tsn w.cum
  passed : ∀ p, 0 < p → p ≤ w.cum → snd.Complete w.taken p ∨ p ≤ w.skipped
  marked : Marked snd w.taken w.handed w.cum w.s.received
  once : (w.handed.map Delivery.tsn).Nodup
  slot : w.taken ≠ [] → ∃ m i, Slot snd w.taken w.s.r m i
  empty : w.taken = [] → w.s.r.tsn = 0 ∧ w.s.r.ppid = 0

variable {snd : Sender} {w : World} {taken : List ℕ} {handed : List Delivery} {cum p : ℕ}
  {received : ℕ → Bool} {dc : DataChunk} {m : UserMessage}

theorem tsn_succ (p : ℕ) : snd.tsn (p + 1) = snd.tsn p + 1 := Serial.num_succ _ _

theorem sctpRcvsize_dvd : sctpRcvsize ∣ 2 ^ 32 := ⟨2 ^ 21, rfl⟩

theorem cell_tsn_ne {q : ℕ} (h : p < q) (h' : q < p + sctpRcvsize) :
    cell (snd.tsn p) ≠ cell (snd.tsn q) :=
  Serial.cell_ne _ sctpRcvsize_dvd h h'

/-- The cumulative TSN passes one position, whose mark goes. -/
theorem Marked.pass (h : Marked snd taken handed cum received) :
    Marked snd taken handed (cum + 1)
      (Function.update received (cell (snd.tsn (cum + 1))) false) := by
  constructor
  · intro p hp hp' hmark
    by_cases hcell : cell (snd.tsn p) = cell (snd.tsn (cum + 1))
    · rw [hcell, Function.update_self] at hmark
      cases hmark
    · rw [Function.update_of_ne hcell] at hmark
      refine h.complete p (by omega) ?_ hmark
      -- the last cell of the new window is the one that was cleared
      by_contra hlast
      obtain rfl : p = cum + 1 + sctpRcvsize := by omega
      exact hcell ((Serial.cell_inj _ sctpRcvsize_dvd).2 (by simp [Nat.ModEq]))
  · intro d hd
    obtain ⟨m, hm, rfl, hmark⟩ := h.handed d hd
    refine ⟨m, hm, rfl, fun p hp hcum => ?_⟩
    obtain ⟨hlt, hrec⟩ := hmark p hp (by omega)
    refine ⟨by omega, ?_⟩
    rwa [Function.update_of_ne (cell_tsn_ne (by omega) (by omega)).symm]

theorem Sender.Complete.mono {taken' : List ℕ} (h : snd.Complete taken p)
    (hsub : ∀ q ∈ taken, q ∈ taken') : snd.Complete taken' p := by
  obtain ⟨m, hm, hp, hall⟩ := h
  exact ⟨m, hm, hp, fun q hq => hsub q (hall q hq)⟩

theorem Sender.Complete.mem (h : snd.Complete taken p) : p ∈ taken := by
  obtain ⟨m, -, hp, hall⟩ := h
  exact hall p hp

/-! ## What moves the cumulative TSN -/

/-- A run of passed positions, as a change of the association. -/
structure Passes (snd : Sender) (taken : List ℕ) (handed : List Delivery) (s s' : Assoc)
    (cum n : ℕ) : Prop where
  ctsn : s'.ctsn = snd.tsn (cum + n)
  marked : Marked snd taken handed (cum + n) s'.received
  r : s'.r = s.r

theorem advanceCtsn_passes (k : ℕ) {s : Assoc} (hc : s.ctsn = snd.tsn cum)
    (h : Marked snd taken handed cum s.received) :
    ∃ n ≤ k, Passes snd taken handed s (s.advanceCtsn k) cum n ∧
      ∀ p, cum < p → p ≤ cum + n → snd.Complete taken p := by
  induction k generalizing s cum with
  | zero => exact ⟨0, le_rfl, ⟨hc, h, rfl⟩, fun p hp hp' => absurd hp' (by omega)⟩
  | succ k ih =>
    have hnext : s.ctsn + 1 = snd.tsn (cum + 1) := by rw [hc, tsn_succ]
    unfold Assoc.advanceCtsn
    split
    · rename_i hmark
      rw [hnext] at hmark ⊢
      obtain ⟨n, hn, hpass, hcomplete⟩ := ih (s := { s with
        received := Function.update s.received (cell (snd.tsn (cum + 1))) false
        ctsn := snd.tsn (cum + 1)
        htsn := s.htsn - 1 }) rfl h.pass
      refine ⟨n + 1, by omega, ⟨?_, ?_, hpass.r⟩, fun p hp hp' => ?_⟩
      · rw [hpass.ctsn, add_assoc, add_comm 1]
      · have := hpass.marked
        rwa [add_assoc, add_comm 1] at this
      · by_cases hfirst : p = cum + 1
        · rw [hfirst]
          exact h.complete _ (by omega) (by simp [sctpRcvsize]) hmark
        · exact hcomplete p (by omega) (by omega)
    · exact ⟨0, by omega, ⟨hc, h, rfl⟩, fun p hp hp' => absurd hp' (by omega)⟩

theorem skipTsns_passes (n : ℕ) {s : Assoc} (hc : s.ctsn = snd.tsn cum) (h : Marked snd taken handed cum s.received) :
    Passes snd taken handed s (s.skipTsns n) cum n := by
  induction n generalizing s cum with
  | zero => exact ⟨hc, h, rfl⟩
  | succ n ih =>
    have hnext : s.ctsn + 1 = snd.tsn (cum + 1) := by rw [hc, tsn_succ]
    have hpass := ih (s := { s with
      ctsn := snd.tsn (cum + 1)
      received := Function.update s.received (cell (snd.tsn (cum + 1))) false
      htsn := if s.htsn ≠ 0 then s.htsn - 1 else s.htsn
      ackneeded := s.ackneeded + 1 }) rfl h.pass
    unfold Assoc.skipTsns
    rw [hnext]
    refine ⟨?_, ?_, hpass.r⟩
    · rw [hpass.ctsn, add_assoc, add_comm 1]
    · have := hpass.marked
      rwa [add_assoc, add_comm 1] at this

/-! ## A fragment that is taken -/

@[simp] theorem Reassembly.add_firsttns (r : Reassembly) (data : List QByte) :
    (r.add data).firsttns = r.firsttns := by
  unfold Reassembly.add
  split <;> rfl

@[simp] theorem Reassembly.add_tsn (r : Reassembly) (data : List QByte) :
    (r.add data).tsn = r.tsn + 1 := by
  unfold Reassembly.add
  split <;> rfl

@[simp] theorem Reassembly.add_ppid (r : Reassembly) (data : List QByte) :
    (r.add data).ppid = r.ppid := by
  unfold Reassembly.add
  split <;> rfl

theorem Reassembly.add_buf {r : Reassembly} {data : List QByte} (h : (r.add data).toobig = false) :
    r.toobig = false ∧ (r.add data).buf = r.buf ++ data := by
  unfold Reassembly.add at h ⊢
  split at h
  · cases h
  · rename_i hsize
    rw [if_neg hsize]
    exact ⟨h, rfl⟩

/-- The next fragment of the message in the slot. -/
theorem Slot.add {r : Reassembly} {i : ℕ} {data : List QByte} (h : Slot snd taken r m i)
    (hlt : i < m.parts.length) (hdata : m.parts[i]? = some data) :
    Slot snd ((m.first + i) :: taken) (r.add data) m (i + 1) where
  msg := h.msg
  pos := by omega
  le := hlt
  firsttns := by rw [Reassembly.add_firsttns, h.firsttns]
  tsn := by rw [Reassembly.add_tsn, h.tsn, ← add_assoc, tsn_succ]
  ppid := by rw [Reassembly.add_ppid, h.ppid]
  mem := fun q hq hlt => by
    by_cases heq : q = m.first + i
    · exact heq ▸ mem_cons_self
    · exact mem_cons_of_mem _ (h.mem q hq (by omega))
  buf := fun hbig => by
    obtain ⟨hbig', hbuf⟩ := Reassembly.add_buf hbig
    rw [hbuf, h.buf hbig', take_add_one, hdata]
    simp

/-- A first fragment in an empty slot. -/
theorem Slot.begin (hfrag : snd.Fragment m p dc) (hp : p = m.first) (r : Reassembly) :
    Slot snd (p :: taken) ((r.start dc).add dc.data) m 1 := by
  have hdata := hfrag.data_eq
  have hholds := hfrag.holds.2
  rw [hp, Nat.sub_self] at hdata
  have hstart : r.start dc = ⟨dc.tsn, dc.tsn, dc.ppid, dc.sid, dc.seq, false, []⟩ :=
    if_pos (hfrag.beginning_iff.2 hp)
  rw [hstart, hp]
  constructor
  · exact hfrag.msg
  · exact one_pos
  · omega
  · rw [Reassembly.add_firsttns, hfrag.tsn_eq, hp]
  · rw [Reassembly.add_tsn, hfrag.tsn_eq, hp, tsn_succ]
  · rw [Reassembly.add_ppid, hfrag.ppid_eq]
  · intro q hq hlt
    obtain rfl : q = m.first := by omega
    exact mem_cons_self
  · intro hbig
    rw [(Reassembly.add_buf hbig).2, take_add_one, hdata]
    simp

/-- A fragment that is not a first one and matches the slot goes on with the message in it. -/
theorem Slot.follows {r : Reassembly} {m' : UserMessage} {i : ℕ} (h : Slot snd taken r m' i)
    (hfrag : snd.Fragment m p dc) (hp : p ≠ m.first) (htsn : r.tsn = dc.tsn) :
    m' = m ∧ p = m.first + i := by
  obtain ⟨hle, hlt⟩ := hfrag.holds
  have hpos := h.pos
  have hle' := h.le
  have hpred : snd.tsn (m'.first + i - 1) = snd.tsn (p - 1) := by
    have heq : snd.tsn (m'.first + i) = snd.tsn p := by rw [← h.tsn, htsn, hfrag.tsn_eq]
    rw [show m'.first + i = m'.first + i - 1 + 1 by omega, show p = p - 1 + 1 by omega, tsn_succ,
      tsn_succ] at heq
    exact add_right_cancel heq
  obtain ⟨hpos', rfl⟩ := snd.once _ _ _ _ h.msg hfrag.msg ⟨by omega, by omega⟩
    ⟨by omega, by omega⟩ hpred
  exact ⟨rfl, by omega⟩

theorem Sender.holds_first (hm : snd.msgs m) : m.Holds m.first :=
  ⟨le_rfl, Nat.lt_add_of_pos_right (length_pos_of_ne_nil (snd.nonempty m hm))⟩

namespace Assoc

variable {s : Assoc}

theorem fate_taken (h : s.fate dc = .taken) : (dc.tsn - s.ctsn).toInt < sctpRcvsize ∧
    0 < (dc.tsn - s.ctsn).toInt ∧ s.received (cell dc.tsn) = false ∧
    (dc.beginning = true ∨ s.r.tsn = dc.tsn ∧ s.r.ppid = dc.ppid) := by
  unfold fate at h
  dsimp only at h
  split at h
  · cases h
  split at h
  · cases h
  split at h
  · cases h
  rename_i h1 h2 h3
  refine ⟨by omega, by omega, by simpa using h3, ?_⟩
  split at h
  · exact .inl ‹_›
  · split at h
    · cases h
    · rename_i hr
      exact .inr (by simpa [not_or] using hr)

theorem fate_discard (h : s.fate dc = .preCumulative ∨ s.fate dc = .dupe) :
    (dc.tsn - s.ctsn).toInt ≤ 0 ∨ 0 < (dc.tsn - s.ctsn).toInt ∧
      (dc.tsn - s.ctsn).toInt < sctpRcvsize ∧ s.received (cell dc.tsn) = true := by
  unfold fate at h
  dsimp only at h
  split at h
  · simp at h
  split at h
  · exact .inl ‹_›
  split at h
  · exact .inr ⟨by omega, by omega, ‹_›⟩
  · split at h
    · simp at h
    · split at h <;> simp at h

@[simp] theorem take_r (dc : DataChunk) : (s.take dc).1.r = (s.r.start dc).add dc.data := by
  unfold take
  dsimp only
  split <;> rfl

theorem take_of_not_ending (h : ¬ dc.ending = true) :
    (s.take dc).1.received = s.received ∧ (s.take dc).2 = none := by
  unfold take
  simp [h]

theorem take_of_ending (h : dc.ending = true) : (s.take dc).1.received = markAll s.received
      (s.take dc).1.r.firsttns ((s.take dc).1.r.tsn - (s.take dc).1.r.firsttns).toNat ∧
    (s.take dc).2 = (s.take dc).1.r.deliver := by
  unfold take
  simp [h]

end Assoc

theorem markAll_eq_true (first : BitVec 32) (n c : ℕ) : markAll received first n c = true ↔
    received c = true ∨ ∃ u < n, cell (first + BitVec.ofNat 32 u) = c := by
  induction n generalizing received with
  | zero => simp [markAll]
  | succ n ih =>
    rw [markAll, ih, Function.update_apply]
    constructor
    · rintro (h | ⟨u, hu, hc⟩)
      · split at h
        · exact .inr ⟨n, by omega, by simp [*]⟩
        · exact .inl h
      · exact .inr ⟨u, by omega, hc⟩
    · rintro (h | ⟨u, hu, hc⟩)
      · exact .inl (by simp [h])
      · by_cases hn : u = n
        · exact .inl (if_pos (by rw [← hc, hn]))
        · exact .inr ⟨u, by omega, hc⟩

theorem Near.adv (hc : cum < p + 2 ^ 31) (hc' : p < cum + 2 ^ 31) :
    (snd.tsn p - snd.tsn cum).toInt = (p : ℤ) - cum :=
  Serial.toInt_sub _ hc' hc

variable {s : Assoc} {r : Reassembly}

theorem Reassembly.deliver_eq_some {d : Delivery} (h : r.deliver = some d) :
    r.toobig = false ∧ d = ⟨r.firsttns, r.ppid, r.buf⟩ := by
  unfold Reassembly.deliver at h
  split at h
  · cases h
  · split at h
    · exact ⟨by simpa using ‹¬ r.toobig = true›, by simpa using h.symm⟩
    · cases h

/-- A slot that is complete holds the message, and its positions were all taken. -/
theorem Slot.complete (h : Slot snd taken r m m.parts.length) (hp : m.Holds p) :
    snd.Complete taken p :=
  ⟨m, h.msg, hp, fun q hq => h.mem q hq.1 hq.2⟩

theorem Slot.deliver {d : Delivery} (h : Slot snd taken r m m.parts.length)
    (hd : r.deliver = some d) : d = snd.delivery m := by
  obtain ⟨hbig, rfl⟩ := Reassembly.deliver_eq_some hd
  rw [Sender.delivery, h.firsttns, h.ppid, h.buf hbig, take_length]

/-- The marks of a message that is complete, above the cumulative TSN. -/
theorem Marked.markAll (h : Marked snd taken handed cum received) (hslot : Slot snd (p :: taken) r m m.parts.length)
    (hfirst : cum < m.first) (hlast : m.first + m.parts.length ≤ cum + sctpRcvsize) {ds : List Delivery}
    (hds : ∀ d ∈ ds, d = snd.delivery m) :
    Marked snd (p :: taken) (handed ++ ds) cum
      (markAll received (snd.tsn m.first) m.parts.length) := by
  have hmark : ∀ q, cum < q → q ≤ cum + sctpRcvsize →
      (Sctp.markAll received (snd.tsn m.first) m.parts.length (cell (snd.tsn q)) = true ↔
        received (cell (snd.tsn q)) = true ∨ m.Holds q) := by
    intro q hq hq'
    rw [markAll_eq_true]
    refine or_congr_right ⟨?_, ?_⟩
    · rintro ⟨u, hu, hcell⟩
      rw [← Serial.num_add] at hcell
      rcases lt_trichotomy q (m.first + u) with hlt | rfl | hlt
      · exact absurd hcell.symm (cell_tsn_ne hlt (by omega))
      · exact ⟨by omega, by omega⟩
      · exact absurd hcell (cell_tsn_ne hlt (by omega))
    · rintro ⟨hle, hlt⟩
      refine ⟨q - m.first, by omega, ?_⟩
      rw [← Serial.num_add, Nat.add_sub_cancel' hle]
  constructor
  · intro q hq hq' hrec
    rcases (hmark q hq hq').1 hrec with hold | hin
    · exact (h.complete q hq hq' hold).mono fun _ => mem_cons_of_mem _
    · exact hslot.complete hin
  · intro d hd
    rcases mem_append.1 hd with hold | hnew
    · obtain ⟨m', hm', rfl, hall⟩ := h.handed d hold
      refine ⟨m', hm', rfl, fun q hq hcum => ?_⟩
      obtain ⟨hlt, hrec⟩ := hall q hq hcum
      exact ⟨hlt, (hmark q hcum hlt.le).2 (.inl hrec)⟩
    · refine ⟨m, hslot.msg, hds d hnew, fun q hq hcum => ?_⟩
      have hlt : q < cum + sctpRcvsize := lt_of_lt_of_le hq.2 hlast
      exact ⟨hlt, (hmark q hcum hlt.le).2 (.inr hq)⟩

/-- A message with an unmarked fragment above the cumulative TSN was not handed over. -/
theorem Marked.not_mem (h : Marked snd taken handed cum received) (hm : snd.msgs m) (hp : m.Holds p)
    (hcum : cum < p) (hrec : received (cell (snd.tsn p)) = false) :
    snd.tsn m.first ∉ handed.map Delivery.tsn := by
  intro hmem
  obtain ⟨d, hd, htsn⟩ := mem_map.1 hmem
  obtain ⟨m', hm', rfl, hall⟩ := h.handed d hd
  obtain ⟨-, rfl⟩ := snd.once _ _ _ _ hm' hm (snd.holds_first hm') (snd.holds_first hm) htsn
  rw [(hall p hp hcum).2] at hrec
  cases hrec

/-! ## Steps of the invariant -/

/-- The fields that a change of the rest of the association leaves. -/
theorem Inv.passes {s' : Assoc} {n : ℕ} {w' : World} (h : Inv snd w) (hp : Passes snd w.taken w.handed w.s s' w.cum n)
    (hpassed : ∀ p, w.cum < p → p ≤ w.cum + n → snd.Complete w.taken p ∨ p ≤ w'.skipped)
    (hskipped : w.skipped ≤ w'.skipped) (hw : w' = ⟨s', true, w.cum + n, w.taken, w'.skipped, w.handed⟩) :
    Inv snd w' := by
  rw [hw]
  constructor
  · intro hidle
    cases hidle
  · exact fun _ => hp.ctsn
  · intro p hpos hle
    by_cases hold : p ≤ w.cum
    · exact (h.passed p hpos hold).imp_right fun hs => hs.trans hskipped
    · exact hpassed p (by omega) hle
  · exact hp.marked
  · exact h.once
  · exact fun ht => hp.r ▸ h.slot ht
  · exact fun ht => hp.r ▸ h.empty ht

theorem World.cum_add {s' : Assoc} {n : ℕ} (hs : s.ctsn = snd.tsn cum)
    (hs' : s'.ctsn = snd.tsn (cum + n)) (hn : n < 2 ^ 32) : (s'.ctsn - s.ctsn).toNat = n := by
  rw [hs, hs', Serial.toNat_sub _ (by omega) (by omega)]
  omega

/-- The cumulative TSN does not move. -/
theorem Inv.same (s' : Assoc) (h : Inv snd w) (hctsn : s'.ctsn = w.s.ctsn)
    (hhtsn : w.started = false → s'.htsn = w.s.htsn) (hrec : s'.received = w.s.received) (hr : s'.r = w.s.r) :
    Inv snd ⟨s', w.started, w.cum + (s'.ctsn - w.s.ctsn).toNat, w.taken, w.skipped, w.handed⟩ := by
  have hcum : w.cum + (s'.ctsn - w.s.ctsn).toNat = w.cum := by simp [hctsn]
  rw [hcum]
  exact ⟨fun hidle => ⟨(hhtsn hidle).trans (h.idle hidle).1, (h.idle hidle).2⟩,
    fun hstart => hctsn.trans (h.ctsn hstart), h.passed, hrec ▸ h.marked, h.once, hr ▸ h.slot,
    hr ▸ h.empty⟩

theorem transmit_fields (s : Assoc) (length : ℕ) (h : length ≤ 65536) :
    (s.transmit length).ctsn = (s.advanceCtsn s.htsn.toNat).ctsn ∧
    (s.transmit length).htsn = (s.advanceCtsn s.htsn.toNat).htsn ∧
    (s.transmit length).received = (s.advanceCtsn s.htsn.toNat).received ∧
    (s.transmit length).r = (s.advanceCtsn s.htsn.toNat).r := by
  unfold Assoc.transmit
  rw [if_neg (by omega)]
  dsimp only
  split
  · exact ⟨rfl, rfl, rfl, rfl⟩
  · split <;> exact ⟨rfl, rfl, rfl, rfl⟩

theorem Inv.transmit (h : Inv snd w) (length : ℕ) : Inv snd (w.exec snd (.transmit length)) := by
  have hexec : w.exec snd (.transmit length) = ⟨w.s.transmit length, w.started,
      w.cum + ((w.s.transmit length).ctsn - w.s.ctsn).toNat, w.taken, w.skipped, w.handed⟩ := by
    simp [World.exec, Assoc.step, Op.event]
  rw [hexec]
  by_cases hlen : 65536 < length
  · have hsame : w.s.transmit length = w.s := if_pos hlen
    rw [hsame]
    exact h.same _ rfl (fun _ => rfl) rfl rfl
  obtain ⟨hctsn, hhtsn, hrec, hr⟩ := transmit_fields w.s length (by omega)
  cases hstart : w.started with
  | false =>
    obtain ⟨hidle, -⟩ := h.idle hstart
    rw [hidle] at hctsn hhtsn hrec hr
    rw [← hstart]
    exact h.same _ hctsn (fun _ => hhtsn.trans rfl) hrec hr
  | true =>
    obtain ⟨n, hn, hpass, hcomplete⟩ := advanceCtsn_passes w.s.htsn.toNat (h.ctsn hstart) h.marked
    have hpass' : Passes snd w.taken w.handed w.s (w.s.transmit length) w.cum n :=
      ⟨hctsn.trans hpass.ctsn, hrec ▸ hpass.marked, hr.trans hpass.r⟩
    rw [World.cum_add (h.ctsn hstart) hpass'.ctsn (lt_of_le_of_lt hn w.s.htsn.isLt)]
    exact h.passes hpass' (fun p hp hp' => .inl (hcomplete p hp hp')) le_rfl rfl

theorem Inv.forwardTsn (h : Inv snd w) (hstart : w.started = true) (hnear : Near w.cum p) :
    Inv snd (w.exec snd (.forwardTsn p)) := by
  have hexec : w.exec snd (.forwardTsn p) = ⟨w.s.forwardTsn (snd.tsn p), w.started,
      w.cum + ((w.s.forwardTsn (snd.tsn p)).ctsn - w.s.ctsn).toNat, w.taken, max w.skipped p,
      w.handed⟩ := by
    simp [World.exec, Assoc.step, Op.event, Assoc.chunk]
  rw [hexec, hstart]
  have hadv : (snd.tsn p - snd.tsn w.cum).toInt = (p : ℤ) - w.cum := Near.adv hnear.2 hnear.1
  rw [← h.ctsn hstart] at hadv
  have hpass : ∃ n ≤ 1024, (0 < n → w.cum + n ≤ p) ∧
      Passes snd w.taken w.handed w.s (w.s.forwardTsn (snd.tsn p)) w.cum n := by
    unfold Assoc.forwardTsn
    dsimp only
    split
    · exact ⟨0, by omega, by omega, h.ctsn hstart, h.marked, rfl⟩
    · have hcount : (snd.tsn p - w.s.ctsn).toNat = p - w.cum := by
        rw [h.ctsn hstart, Serial.toNat_sub _ (by omega) (by have := hnear.1; omega)]
      refine ⟨_, min_le_right _ _, ?_, skipTsns_passes _ (h.ctsn hstart) h.marked⟩
      omega
  obtain ⟨n, hn, hle, hpass⟩ := hpass
  rw [World.cum_add (h.ctsn hstart) hpass.ctsn (by omega)]
  refine h.passes hpass (fun q hq hq' => .inr ?_) (le_max_left _ _) rfl
  exact le_max_of_le_right (by omega)

theorem initParams_fields (params : List InitParam) (s : Assoc) :
    (s.initParams params).1.ctsn = s.ctsn ∧ (s.initParams params).1.htsn = s.htsn ∧
    (s.initParams params).1.received = s.received ∧ (s.initParams params).1.r = s.r := by
  induction params generalizing s with
  | nil => exact ⟨rfl, rfl, rfl, rfl⟩
  | cons p ps ih =>
    unfold Assoc.initParams
    split
    · exact ih _
    split
    · exact ih _
    split
    · exact ih _
    split
    · exact ⟨rfl, rfl, rfl, rfl⟩
    · exact ih _

theorem init_fields (isack : Bool) (tsn : BitVec 32) (params : List InitParam) (s : Assoc) :
    (s.init isack tsn params).1.ctsn = tsn - 1 ∧ (s.init isack tsn params).1.htsn = 0 ∧
    (s.init isack tsn params).1.received = s.received ∧ (s.init isack tsn params).1.r = s.r := by
  obtain ⟨hctsn, hhtsn, hrec, hr⟩ := initParams_fields params { s with ctsn := tsn - 1, htsn := 0 }
  unfold Assoc.init
  dsimp only
  split
  · exact ⟨hctsn, hhtsn, hrec, hr⟩
  · split
    · obtain ⟨h1, h2, h3, h4⟩ := transmit_fields
        (Assoc.initParams params { s with ctsn := tsn - 1, htsn := 0 }).1 0 (by omega)
      rw [hhtsn] at h1 h2 h3 h4
      exact ⟨h1.trans hctsn, h2.trans hhtsn, h3.trans hrec, h4.trans hr⟩
    · exact ⟨hctsn, hhtsn, hrec, hr⟩

theorem Inv.init (h : Inv snd w) (hcum : w.cum = 0) (isack : Bool) (params : List InitParam) :
    Inv snd (w.exec snd (.init isack params)) := by
  obtain ⟨hctsn, hhtsn, hrec, hr⟩ := init_fields isack (snd.tsn 1) params w.s
  have hexec : w.exec snd (.init isack params) =
      ⟨(w.s.init isack (snd.tsn 1) params).1, true, 0, w.taken, w.skipped, w.handed⟩ := by
    simp [World.exec, Assoc.step, Op.event, Assoc.chunk]
  rw [hexec]
  constructor
  · intro hidle
    cases hidle
  · intro _
    rw [hctsn, ← zero_add 1, tsn_succ]
    exact add_sub_cancel_right _ _
  · intro p hpos hle
    exact absurd (lt_of_lt_of_le hpos hle) (lt_irrefl 0)
  · rw [hrec, ← hcum]
    exact h.marked
  · exact h.once
  · exact fun ht => hr ▸ h.slot ht
  · exact fun ht => hr ▸ h.empty ht

theorem data_of_taken (h : s.fate dc = .taken) (odd : Bool) :
    (s.data dc odd).1.ctsn = s.ctsn ∧ (s.data dc odd).1.received = (s.take dc).1.received ∧
    (s.data dc odd).1.r = (s.take dc).1.r ∧ (s.data dc odd).2.1 = (s.take dc).2 := by
  have h' : Assoc.fate { s with ackneeded := s.ackneeded + 1 } dc = .taken := h
  unfold Assoc.data
  simp only [h']
  unfold Assoc.take
  dsimp only
  split <;> exact ⟨rfl, rfl, rfl, rfl⟩

theorem data_of_not_taken (h : s.fate dc ≠ .taken) (odd : Bool) :
    s.data dc odd = ({ s with ackneeded := s.ackneeded + 1 }, none, false) := by
  have h' : Assoc.fate { s with ackneeded := s.ackneeded + 1 } dc = s.fate dc := rfl
  unfold Assoc.data
  simp only [h']

/-- What the checks of a DATA chunk say about its position. -/
theorem Inv.fate_taken (h : Inv snd w) (hstart : w.started = true) (hnear : Near w.cum p)
    (hfrag : snd.Fragment m p dc) (hfate : w.s.fate dc = .taken) :
    w.cum < p ∧ p < w.cum + sctpRcvsize ∧ w.s.received (cell (snd.tsn p)) = false ∧
      (dc.beginning = true ∨ w.s.r.tsn = dc.tsn ∧ w.s.r.ppid = dc.ppid) := by
  obtain ⟨hlt, hpos, hrec, hslot⟩ := Assoc.fate_taken hfate
  rw [hfrag.tsn_eq, h.ctsn hstart, Near.adv hnear.2 hnear.1] at hlt hpos
  rw [hfrag.tsn_eq] at hrec
  exact ⟨by omega, by omega, hrec, hslot⟩

/-- The slot after a fragment was taken. -/
theorem Inv.slot_take (h : Inv snd w) (hfrag : snd.Fragment m p dc)
    (hfirst : w.taken = [] → dc.tsn = 0 → dc.ppid = 0 → dc.beginning = true)
    (hslot : dc.beginning = true ∨ w.s.r.tsn = dc.tsn ∧ w.s.r.ppid = dc.ppid) :
    Slot snd (p :: w.taken) ((w.s.r.start dc).add dc.data) m (p + 1 - m.first) := by
  by_cases hbegin : dc.beginning = true
  · have hp := hfrag.beginning_iff.1 hbegin
    have hone : p + 1 - m.first = 1 := by omega
    rw [hone]
    exact Slot.begin hfrag hp _
  · obtain ⟨htsn, hppid⟩ := hslot.resolve_left hbegin
    have hstart : w.s.r.start dc = w.s.r := if_neg hbegin
    have htaken : w.taken ≠ [] := by
      intro hnil
      obtain ⟨hr, hr'⟩ := h.empty hnil
      exact hbegin (hfirst hnil (htsn ▸ hr) (hppid ▸ hr'))
    obtain ⟨m', i, hs⟩ := h.slot htaken
    obtain ⟨rfl, rfl⟩ := hs.follows hfrag (fun hp => hbegin (hfrag.beginning_iff.2 hp)) htsn
    have hdata := hfrag.data_eq
    have hlt := hfrag.holds.2
    rw [Nat.add_sub_cancel_left] at hdata
    rw [hstart, show m'.first + i + 1 - m'.first = i + 1 by omega]
    exact hs.add (by omega) hdata

theorem Inv.data (h : Inv snd w) (hfrag : snd.Fragment m p dc) (odd : Bool)
    (hmeets : Meets snd w (.data p dc odd)) : Inv snd (w.exec snd (.data p dc odd)) := by
  obtain ⟨hstart, hnear, hfirst, hstraddle⟩ := hmeets
  by_cases hfate : w.s.fate dc = .taken
  · obtain ⟨hcum, hlt, hrec, hslot⟩ := h.fate_taken hstart hnear hfrag hfate
    obtain ⟨hctsn', hrec', hr', hd'⟩ := data_of_taken hfate odd
    have hexec : w.exec snd (.data p dc odd) = ⟨(w.s.data dc odd).1, w.started, w.cum,
        p :: w.taken, w.skipped, w.handed ++ (w.s.take dc).2.toList⟩ := by
      simp [World.exec, Assoc.step, Op.event, Assoc.chunk, hfate, hctsn', hd']
    have hs := h.slot_take hfrag hfirst hslot
    have hmono : ∀ q ∈ w.taken, q ∈ p :: w.taken := fun q => mem_cons_of_mem _
    have hmarked : Marked snd (p :: w.taken) (w.handed ++ (w.s.take dc).2.toList) w.cum (w.s.take dc).1.received ∧
        ((w.handed ++ (w.s.take dc).2.toList).map Delivery.tsn).Nodup := by
      by_cases hend : dc.ending = true
      · -- the fragment completes its message, which is above the cumulative TSN as a whole
        have hlen : p + 1 - m.first = m.parts.length := by
          have := hfrag.ending_iff.1 hend
          omega
        have hbelow : w.cum < m.first := by
          by_contra hle
          rcases hslot with hbegin | ⟨htsn, -⟩
          · have := hfrag.beginning_iff.1 hbegin
            omega
          · exact hstraddle m hfrag ⟨by omega, hcum, hend, htsn⟩
        have hle := hfrag.holds.1
        rw [hlen] at hs
        have hcount : (((w.s.r.start dc).add dc.data).tsn -
            ((w.s.r.start dc).add dc.data).firsttns).toNat = m.parts.length := by
          rw [hs.tsn, hs.firsttns, Serial.toNat_sub _ (by omega) (by simp [sctpRcvsize] at hlt; omega)]
          omega
        obtain ⟨hr, hd⟩ := Assoc.take_of_ending (s := w.s) hend
        rw [Assoc.take_r] at hr hd
        rw [hr, hd, hcount, hs.firsttns]
        have hdel : ∀ d ∈ ((w.s.r.start dc).add dc.data).deliver.toList, d = snd.delivery m :=
          fun d hmem => hs.deliver (mem_toList.1 hmem)
        refine ⟨h.marked.markAll hs hbelow (by omega) hdel, ?_⟩
        rw [map_append, nodup_append]
        refine ⟨h.once, ?_, ?_⟩
        · cases ((w.s.r.start dc).add dc.data).deliver <;> simp
        · rintro t ht t' ht' rfl
          obtain ⟨d, hmem, rfl⟩ := mem_map.1 ht'
          rw [hdel d hmem] at ht
          exact h.marked.not_mem hfrag.msg hfrag.holds hcum hrec ht
      · obtain ⟨hr, hd⟩ := Assoc.take_of_not_ending (s := w.s) hend
        rw [hr, hd, toList_none, append_nil]
        exact ⟨⟨fun q hq hq' hmark => (h.marked.complete q hq hq' hmark).mono hmono,
          h.marked.handed⟩, h.once⟩
    rw [hexec]
    constructor
    · intro hidle
      rw [hstart] at hidle
      cases hidle
    · exact fun hs => hctsn'.trans (h.ctsn hs)
    · exact fun q hpos hle => (h.passed q hpos hle).imp_left (·.mono hmono)
    · rw [hrec']
      exact hmarked.1
    · exact hmarked.2
    · intro _
      rw [hr', Assoc.take_r]
      exact ⟨m, _, hs⟩
    · intro hnil
      cases hnil
  · have hexec : w.exec snd (.data p dc odd) = ⟨{ w.s with ackneeded := w.s.ackneeded + 1 },
        w.started, w.cum + (w.s.ctsn - w.s.ctsn).toNat, w.taken, w.skipped, w.handed⟩ := by
      simp [World.exec, Assoc.step, Op.event, Assoc.chunk, hfate, data_of_not_taken]
    rw [hexec]
    exact h.same _ rfl (fun _ => rfl) rfl rfl

theorem Inv.exec (h : Inv snd w) {op : Op} (hsent : Sent snd op) (hmeets : Meets snd w op) :
    Inv snd (w.exec snd op) := by
  cases op with
  | data p dc odd =>
    obtain ⟨m, hfrag⟩ := hsent
    exact h.data hfrag odd hmeets
  | init isack params => exact h.init hmeets isack params
  | cookieEcho | cookieAck =>
    have hw := h.same { w.s with writable := true } rfl (fun _ => rfl) rfl rfl
    simpa [World.exec, Assoc.step, Op.event, Assoc.chunk] using hw
  | forwardTsn p => exact h.forwardTsn hmeets.1 hmeets.2
  | other =>
    have hw := h.same w.s rfl (fun _ => rfl) rfl rfl
    simpa [World.exec, Assoc.step, Op.event, Assoc.chunk] using hw
  | transmit length => exact h.transmit length

theorem inv_fresh : Inv snd .fresh where
  idle _ := ⟨rfl, rfl⟩
  ctsn h := by cases h
  passed p hpos hle := absurd (lt_of_lt_of_le hpos hle) (lt_irrefl 0)
  marked :=
    { complete := fun _ _ _ h => absurd h Bool.false_ne_true
      handed := fun _ h => absurd h not_mem_nil }
  once := nodup_nil
  slot h := absurd rfl h
  empty _ := ⟨rfl, rfl⟩

theorem Run.inv (h : Run snd (Meets snd) w) : Inv snd w := by
  induction h with
  | fresh => exact inv_fresh
  | step op _ hsent hmeets ih => exact ih.exec hsent hmeets

/-- A fragment that is dropped as a duplicate was taken or skipped before. -/
theorem Inv.discard (h : Inv snd w) (hstart : w.started = true) (hnear : Near w.cum p)
    (hfrag : snd.Fragment m p dc) (hfate : w.s.fate dc = .preCumulative ∨ w.s.fate dc = .dupe) :
    p ∈ w.taken ∨ p ≤ w.skipped := by
  have hpos : 0 < p := lt_of_lt_of_le (snd.first_pos m hfrag.msg) hfrag.holds.1
  have hadv : (dc.tsn - w.s.ctsn).toInt = (p : ℤ) - w.cum := by
    rw [hfrag.tsn_eq, h.ctsn hstart, Near.adv hnear.2 hnear.1]
  rcases Assoc.fate_discard hfate with hle | ⟨hlo, hhi, hrec⟩
  · exact (h.passed p hpos (by omega)).imp_left Sender.Complete.mem
  · rw [hfrag.tsn_eq] at hrec
    exact .inl (h.marked.complete p (by omega) (by omega) hrec).mem

/-- **Messages arrive at most once and whole, and nothing is dropped or passed that did not arrive**,
in every run whose steps meet the condition. -/
theorem receive_safe (snd : Sender) (w : World) (op : Op) (hrun : Run snd (Meets snd) w)
    (hsent : Sent snd op) (hmeets : Meets snd w op) : Safe snd w op := by
  have h := hrun.inv
  have h' := h.exec hsent hmeets
  refine ⟨h'.once, fun d hd => ?_, ?_, h'.passed⟩
  · obtain ⟨m, hm, heq, -⟩ := h'.marked.handed d hd
    exact ⟨m, hm, heq⟩
  · rintro p dc odd rfl hfate
    obtain ⟨m, hfrag⟩ := hsent
    exact h.discard hmeets.1 hmeets.2.1 hfrag hfate

/-- A message of two fragments. -/
def pairMessage : UserMessage := ⟨1, sctpPpidData, [[1, 2], [3]]⟩

/-- A sender of one message. -/
def pairSender : Sender where
  origin := 41
  msgs := (· = pairMessage)
  first_pos := by
    rintro m rfl
    exact one_pos
  nonempty := by
    rintro m rfl
    exact List.cons_ne_nil _ _
  once := by
    rintro m m' p p' rfl rfl hp hp' h
    have hlt : p < 3 := hp.2
    have hlt' : p' < 3 := hp'.2
    have hmod := (Serial.num_inj _).1 h
    exact ⟨by omega, rfl⟩

/-- The fragments of the message. -/
def pairFirst : Op := .data 1 ⟨2, 42, 0, 0, sctpPpidData, [1, 2]⟩ false

@[inherit_doc pairFirst]
def pairLast : Op := .data 2 ⟨1, 43, 0, 0, sctpPpidData, [3]⟩ false

theorem sent_pairFirst : Sent pairSender pairFirst :=
  ⟨pairMessage, rfl, ⟨by decide, by decide⟩, rfl, by decide, by decide, rfl, rfl⟩

theorem sent_pairLast : Sent pairSender pairLast :=
  ⟨pairMessage, rfl, ⟨by decide, by decide⟩, rfl, by decide, by decide, rfl, rfl⟩

/-- The association after INIT and the first fragment. -/
def pairHalf : World := (World.fresh.exec pairSender (.init false [])).exec pairSender pairFirst

/-- The two fragments of a message, one after the other. -/
theorem receive_safe_pair : Safe pairSender pairHalf pairLast :=
  receive_safe pairSender pairHalf pairLast
    (.step _ (.step _ .fresh trivial rfl) sent_pairFirst
      ⟨rfl, ⟨by decide, by decide⟩, fun _ _ _ => rfl, fun _ _ hs => absurd hs.2.2.1 (by decide)⟩)
    sent_pairLast
    ⟨rfl, ⟨by decide +kernel, by decide +kernel⟩, fun h => absurd h (by decide +kernel),
      fun m hfrag hs => absurd hs.1 (by obtain rfl := hfrag.msg; decide +kernel)⟩

/-- The association that takes the whole message, acknowledges it, and then sees the INIT again and
the first fragment again. -/
def pairAgain : World :=
  [pairLast, .transmit 0, .init false [], pairFirst].foldl (World.exec pairSender) pairHalf

/-- A repeated INIT opens the window over messages that were handed over. -/
theorem receive_safe_reinit : ¬ ∀ snd w op, Run snd (fun _ _ => True) w → Sent snd op →
    Safe snd w op := by
  intro h
  have hrun : Run pairSender (fun _ _ => True) pairAgain :=
    .step _ (.step _ (.step _ (.step _ (.step _ (.step _ .fresh trivial trivial) sent_pairFirst
      trivial) sent_pairLast trivial) trivial trivial) trivial trivial) sent_pairFirst trivial
  have honce := (h pairSender pairAgain pairLast hrun sent_pairLast).once
  exact absurd honce (by decide +kernel)

end Sctp

end FteQuake
