import Mathlib.Data.BitVec
import Mathlib.Data.List.GetD
import FteQuake.Common.Sizebuf
import FteQuake.Lib.BufferWindow

/-!
# A relay over TCP

`TURN_TCP_SendPacket` and `TURN_TCP_GetPacket` of `net_ice.c`. Packets for the relay go to the stream, and what the
stream does not take waits in `send.buf`. What the stream gives collects in `recv.buf`, until a packet is whole by
the length in its header. What each call of `VFS_WRITE` and `VFS_READ` returns is a parameter.

A packet for which there is no room behind others is put over them (`sendPacket_lost`), a packet of which the stream
takes nothing is queued and yet refused, and a packet that is longer than `net_message_buffer` is copied past its end.
Without these, both directions keep the stream (`runs_kept`).
-/

namespace FteQuake

open List Option

namespace TurnTcp

/-- The size of `send.buf` and `recv.buf`. -/
def bufSize : ℕ := 20 + 65536

/-- `MAX_OVERALLMSGLEN`, the size of `net_message_buffer`. -/
def maxOverallmsglen : ℕ := 65536

/-- `neterr_t`, as far as it is returned here. -/
inductive NetErr
  | sent
  | noroute
  | disconnected
  | clogged
  deriving DecidableEq

/-- `turntcp_connection_s`, with what the stream has to give yet and what it has taken. -/
structure Conn where
  send : Window QByte
  recv : Window QByte
  incoming : List QByte
  written : List QByte

/-- A connection that was just established. -/
def start (incoming : List QByte) : Conn := ⟨⟨fun _ => 0, 0, 0⟩, ⟨fun _ => 0, 0, 0⟩, incoming, []⟩

/-- The size of a packet by its header. -/
def psize (packet : List QByte) : ℕ := 20 + (packet.getD 2 0).toNat <<< 8 + (packet.getD 3 0).toNat

/-! ## Sending -/

/-- A packet that goes to the stream at once. What is left of it waits. -/
def Conn.sendDirect (c : Conn) (data : List QByte) (r : ℤ) : NetErr × Conn :=
  if r < 0 then (.disconnected, c)
  else
    let err := min r.toNat data.length
    let c' := { c with written := c.written ++ data.take err }
    (if err = 0 then .clogged else .sent,
      if err < data.length then { c' with send := ⟨c.send.buf.blit 0 (data.drop err), 0, data.length - err⟩ } else c')

/-- A packet while others wait. -/
def Conn.sendBuffered (c : Conn) (data : List QByte) (r : ℤ) : NetErr × Conn :=
  let w := if bufSize < c.send.offset + c.send.avail + data.length then c.send.compact else c.send
  let w' : Window QByte := ⟨w.buf.blit w.offset data, w.offset, w.avail + data.length⟩
  if r < 0 then (.disconnected, { c with send := w' })
  else
    let err := min r.toNat w'.avail
    (.sent, { c with send := w'.consume err, written := c.written ++ w'.pending.take err })

/-- `TURN_TCP_SendPacket`, for a packet to the relay or to another address. `VFS_WRITE` returns `r`, but no more than
it is given. -/
def Conn.sendPacket (c : Conn) (toRelay : Bool) (data : List QByte) (r : ℤ) : NetErr × Conn :=
  if ¬toRelay then (.noroute, c)
  else if data.length < 20 ∨ data.length ≠ psize data then (.noroute, c)
  else if c.send.avail = 0 ∧ data.length < bufSize then c.sendDirect data r
  else if bufSize < c.send.avail + data.length then (.clogged, c)
  else c.sendBuffered data r

/-! ## Receiving -/

/-- What waits is written at the begin of `TURN_TCP_GetPacket`. -/
def Conn.flushSend (c : Conn) (r : ℤ) : Conn :=
  if c.send.avail ≠ 0 ∧ 0 ≤ r then
    let err := min r.toNat c.send.avail
    { c with send := c.send.consume err, written := c.written ++ c.send.pending.take err }
  else c

/-- A list begins with a whole packet. -/
def Whole (l : List QByte) : Prop := 20 ≤ l.length ∧ psize l ≤ l.length

instance (l : List QByte) : Decidable (Whole l) := inferInstanceAs (Decidable (_ ∧ _))

/-- One round of the loop up to `VFS_READ`: it ends the call, with a packet or without, or it reads. -/
def Conn.attempt (c : Conn) (tried : Bool) : Option (Option (List QByte) × Conn) ⊕ Conn :=
  if Whole c.recv.pending then
    let size := psize c.recv.pending
    .inl (if size ≤ maxOverallmsglen then some (some (c.recv.pending.take size), { c with recv := c.recv.consume size })
      else none)
  else if c.recv.offset ≠ 0 ∧ c.recv.offset + c.recv.avail = bufSize then .inr { c with recv := c.recv.compact }
  else if tried then .inl (some (none, c))
  else .inr c

/-- What `VFS_READ` stores, when it returns `r` and there is as much. -/
def Conn.vfsRead (c : Conn) (r : ℤ) : List QByte :=
  (c.incoming.take (bufSize - (c.recv.offset + c.recv.avail))).take r.toNat

/-- The loop. Behind the last result, there is no data. -/
def readLoop : List ℤ → Bool → Conn → Option (Option (List QByte) × Conn)
  | [], tried, c => (c.attempt tried).elim id fun c => some (none, c)
  | r :: reads, tried, c => (c.attempt tried).elim id fun c =>
    let bytes := c.vfsRead r
    if bytes = [] then some (none, c)
    else readLoop reads true { c with recv := c.recv.extend bytes, incoming := c.incoming.drop bytes.length }

/-- `TURN_TCP_GetPacket`. -/
def Conn.getPacket (c : Conn) (r : ℤ) (reads : List ℤ) : Option (Option (List QByte) × Conn) :=
  readLoop reads false (c.flushSend r)

/-! ## Runs -/

inductive Op
  | send (toRelay : Bool) (data : List QByte) (r : ℤ)
  | get (r : ℤ) (reads : List ℤ)

/-- One call: the packet that was accepted, the packet that was returned, and the connection. -/
def Conn.exec (c : Conn) : Op → Option (List (List QByte) × List (List QByte) × Conn)
  | .send toRelay data r =>
    let (e, c) := c.sendPacket toRelay data r
    some (if e = .sent then [data] else [], [], c)
  | .get r reads => (c.getPacket r reads).map fun (packet, c) => ([], packet.toList, c)

def Conn.runs (c : Conn) : List Op → Option (List (List QByte) × List (List QByte) × Conn)
  | [] => some ([], [], c)
  | op :: ops => do
    let (accepted, got, c) ← c.exec op
    let (accepted', got', c) ← c.runs ops
    some (accepted ++ accepted', got ++ got', c)

/-- A packet `TURN_TCP_SendPacket` does not refuse at once. -/
def Valid (toRelay : Bool) (data : List QByte) : Prop := toRelay ∧ 20 ≤ data.length ∧ data.length = psize data

/-- A call that does not come to one of the three places: a packet that is sent while others wait finds no room, of a
packet that is sent at once the stream takes something, and a packet of the stream fits into `net_message_buffer`. -/
def StepOk (c : Conn) : Op → Prop
  | .send toRelay data r => Valid toRelay data →
    (c.send.avail ≠ 0 → bufSize < c.send.avail + data.length) ∧ (c.send.avail = 0 → r ≠ 0)
  | .get _ _ => Whole (c.recv.pending ++ c.incoming) → psize (c.recv.pending ++ c.incoming) ≤ maxOverallmsglen

/-- All calls of a run. -/
def RunOk (c : Conn) : List Op → Prop
  | [] => True
  | op :: ops => StepOk c op ∧ ∀ accepted got c', c.exec op = some (accepted, got, c') → RunOk c' ops

/-! ## What one call keeps -/

/-- All that the stream was given, or will be given. -/
def Conn.total (c : Conn) : List QByte := c.written ++ c.send.pending

/-- All that is yet to be returned. -/
def Conn.stream (c : Conn) : List QByte := c.recv.pending ++ c.incoming

/-- The windows are within the buffers. -/
structure Fits (c : Conn) : Prop where
  send : c.send.offset + c.send.avail ≤ bufSize
  recv : c.recv.offset + c.recv.avail ≤ bufSize

/-- A whole packet, by the length in its header. -/
def IsPacket (packet : List QByte) : Prop := 20 ≤ packet.length ∧ packet.length = psize packet

/-- From `c` to `c'`, accepted packets were put behind all others, and those that were returned are the next ones of
the stream. -/
structure Keeps (c : Conn) (accepted got : List (List QByte)) (c' : Conn) : Prop where
  fits : Fits c'
  total : c'.total = c.total ++ accepted.flatten
  stream : c.stream = got.flatten ++ c'.stream
  packets : ∀ packet ∈ got, IsPacket packet ∧ packet.length ≤ maxOverallmsglen

theorem Keeps.refl {c : Conn} (h : Fits c) : Keeps c [] [] c := ⟨h, by simp, rfl, nofun⟩

theorem Keeps.trans {c c' c'' : Conn} {accepted got accepted' got' : List (List QByte)} (h : Keeps c accepted got c')
    (h' : Keeps c' accepted' got' c'') : Keeps c (accepted ++ accepted') (got ++ got') c'' where
  fits := h'.fits
  total := by rw [h'.total, h.total, flatten_append, append_assoc]
  stream := by rw [h.stream, h'.stream, flatten_append, append_assoc]
  packets := forall_mem_append.mpr ⟨h.packets, h'.packets⟩

theorem psize_lt (packet : List QByte) : psize packet < bufSize := by
  have hhi := (packet.getD 2 0).isLt
  have hlo := (packet.getD 3 0).isLt
  rw [psize, Nat.shiftLeft_eq, bufSize]
  omega

theorem twenty_le_psize (packet : List QByte) : 20 ≤ psize packet := Nat.le_add_right_of_le (Nat.le_add_right _ _)

/-- The size is in the first bytes. -/
theorem psize_append {l : List QByte} (h : 20 ≤ l.length) (l' : List QByte) : psize (l ++ l') = psize l := by
  rw [psize, psize, getD_append _ _ _ _ (by omega), getD_append _ _ _ _ (by omega)]

theorem isPacket_take {l : List QByte} (h : Whole l) : IsPacket (l.take (psize l)) := by
  have hlen : (l.take (psize l)).length = psize l := length_take_of_le h.2
  have hheader := (twenty_le_psize l).trans hlen.ge
  refine ⟨hheader, hlen.trans ?_⟩
  have hsize := psize_append hheader (l.drop (psize l))
  rwa [take_append_drop] at hsize

section Send

variable {c c' : Conn}

/-- Bytes that go from the front of the window to the stream. -/
theorem total_consume (c : Conn) (k : ℕ) :
    { c with send := c.send.consume k, written := c.written ++ c.send.pending.take k }.total = c.total := by
  rw [Conn.total, Window.pending_consume, append_assoc, take_append_drop, Conn.total]

theorem flushSend_keeps (h : Fits c) (r : ℤ) : Keeps c [] [] (c.flushSend r) := by
  rw [Conn.flushSend]
  split
  · refine ⟨⟨?_, h.recv⟩, ?_, rfl, nofun⟩
    · have hsend := h.send
      simp only [Window.consume]
      omega
    · rw [total_consume, flatten_nil, append_nil]
  · exact .refl h

/-- A packet that goes to the stream at once, unless the stream takes nothing. -/
theorem sendDirect_keeps {data : List QByte} {r : ℤ} {e : NetErr} (h : Fits c) (havail : c.send.avail = 0)
    (hlen : data.length < bufSize) (hr : r ≠ 0) (hdata : 20 ≤ data.length) (hsend : c.sendDirect data r = (e, c')) :
    Keeps c (if e = .sent then [data] else []) [] c' := by
  have hnone := c.send.pending_of_avail_eq_zero havail
  rw [Conn.sendDirect] at hsend
  split at hsend
  · cases hsend
    exact .refl h
  · have herr : min r.toNat data.length ≠ 0 := by omega
    dsimp only at hsend
    rw [if_neg herr] at hsend
    cases hsend
    rw [if_pos rfl]
    split
    next hlt =>
      refine ⟨⟨by simp only; omega, h.recv⟩, ?_, rfl, nofun⟩
      have hrest := Window.pending_blit c.send.buf 0 (data.drop (min r.toNat data.length))
      rw [length_drop] at hrest
      simp only [Conn.total]
      rw [hrest, hnone, append_assoc, take_append_drop, append_nil, flatten_singleton]
    next hge =>
      refine ⟨⟨h.send, h.recv⟩, ?_, rfl, nofun⟩
      simp only [Conn.total]
      rw [hnone, take_of_length_le (by omega), append_nil, append_nil, flatten_singleton]

theorem sendPacket_keeps {toRelay : Bool} {data : List QByte} {r : ℤ} {e : NetErr} (h : Fits c)
    (hok : StepOk c (.send toRelay data r)) (hsend : c.sendPacket toRelay data r = (e, c')) :
    Keeps c (if e = .sent then [data] else []) [] c' := by
  rw [Conn.sendPacket] at hsend
  split at hsend
  · cases hsend
    exact .refl h
  next hto =>
    split at hsend
    · cases hsend
      exact .refl h
    next hsize =>
      rw [not_or, not_lt, not_not] at hsize
      obtain ⟨hfull, htakes⟩ := hok ⟨of_not_not hto, hsize⟩
      have hlen : data.length < bufSize := hsize.2 ▸ psize_lt data
      by_cases havail : c.send.avail = 0
      · rw [if_pos ⟨havail, hlen⟩] at hsend
        exact sendDirect_keeps h havail hlen (htakes havail) hsize.1 hsend
      · rw [if_neg fun hand => havail hand.1, if_pos (hfull havail)] at hsend
        cases hsend
        exact .refl h

end Send

/-! ## Receiving -/

section Receive

variable {c c' : Conn}

/-- One round keeps the stream. -/
theorem attempt_spec (h : Fits c) (tried : Bool) (hok : Whole c.stream → psize c.stream ≤ maxOverallmsglen) :
    (∃ packet c', c.attempt tried = .inl (some (packet, c')) ∧ Keeps c [] packet.toList c') ∨
      ∃ c', c.attempt tried = .inr c' ∧ Keeps c [] [] c' := by
  rw [Conn.attempt]
  split
  next hwhole =>
    have hsize := psize_append hwhole.1 c.incoming
    have hstream : Whole c.stream := by
      rw [Whole, Conn.stream, hsize, length_append]
      exact ⟨Nat.le_add_right_of_le hwhole.1, Nat.le_add_right_of_le hwhole.2⟩
    have hfits := hok hstream
    rw [Conn.stream, hsize] at hfits
    have hle : psize c.recv.pending ≤ c.recv.avail := c.recv.length_pending ▸ hwhole.2
    refine .inl ⟨_, _, congrArg Sum.inl (if_pos hfits), ⟨h.send, ?_⟩, (append_nil _).symm, ?_, ?_⟩
    · have hrecv := h.recv
      simp only [Window.consume]
      omega
    · simp only [Conn.stream]
      rw [Window.pending_consume, toList_some, flatten_singleton, ← append_assoc, take_append_drop]
    · simp only [toList_some, mem_singleton, forall_eq]
      exact ⟨isPacket_take hwhole, (length_take_le _ _).trans hfits⟩
  next =>
    split
    next hfull =>
      refine .inr ⟨_, rfl, ⟨h.send, ?_⟩, (append_nil _).symm, ?_, nofun⟩
      · have hrecv := h.recv
        simp only [Window.compact]
        omega
      · simp only [Conn.stream, Window.pending_compact]
        rfl
    next =>
      split
      · exact .inl ⟨none, c, rfl, .refl h⟩
      · exact .inr ⟨c, rfl, .refl h⟩

/-- What is read moves from the stream to the buffer. -/
theorem vfsRead_keeps (h : Fits c) (r : ℤ) :
    Keeps c [] [] { c with recv := c.recv.extend (c.vfsRead r), incoming := c.incoming.drop (c.vfsRead r).length } := by
  have hread : c.vfsRead r <+: c.incoming := List.IsPrefix.trans ( take_prefix _ _) ( take_prefix _ _)
  obtain ⟨rest, hrest⟩ := hread
  refine ⟨⟨h.send, ?_⟩, (append_nil _).symm, ?_, nofun⟩
  · have hrecv := h.recv
    have hlen : (c.vfsRead r).length ≤ bufSize - (c.recv.offset + c.recv.avail) :=
      (length_take_le' _ _).trans (length_take_le _ _)
    simp only [Window.extend]
    omega
  · have hdrop : c.incoming.drop (c.vfsRead r).length = rest := by rw [← hrest, drop_left]
    simp only [Conn.stream]
    rw [hdrop, Window.pending_extend, append_assoc, hrest]
    rfl

/-- Rounds that end in a packet or without. -/
theorem readLoop_keeps (reads : List ℤ) (tried : Bool) (h : Fits c)
    (hok : Whole c.stream → psize c.stream ≤ maxOverallmsglen) :
    ∃ packet c', readLoop reads tried c = some (packet, c') ∧ Keeps c [] packet.toList c' := by
  induction reads generalizing tried c with
  | nil =>
    rw [readLoop]
    obtain ⟨packet, c', hdone, hkeeps⟩ | ⟨c', hread, hkeeps⟩ := attempt_spec h tried hok
    · exact ⟨packet, c', by rw [hdone]; rfl, hkeeps⟩
    · exact ⟨none, c', by rw [hread]; rfl, hkeeps⟩
  | cons r reads ih =>
    rw [readLoop]
    obtain ⟨packet, c', hdone, hkeeps⟩ | ⟨c', hread, hkeeps⟩ := attempt_spec h tried hok
    · exact ⟨packet, c', by rw [hdone]; rfl, hkeeps⟩
    · rw [hread, Sum.elim_inr]
      dsimp only
      split
      · exact ⟨none, c', rfl, hkeeps⟩
      · have hread := vfsRead_keeps hkeeps.fits r
        have hsame := hkeeps.trans hread
        have hstream : _ = c.stream := hsame.stream.symm
        rw [append_nil, flatten_nil, nil_append] at hstream
        obtain ⟨packet, c'', hdone, hkeeps'⟩ := ih true hsame.fits (hstream ▸ hok)
        exact ⟨packet, c'', hdone, hsame.trans hkeeps'⟩

end Receive

/-! ## Runs -/

variable {c c' : Conn}

/-- One call that meets the condition completes. -/
theorem exec_keeps {op : Op} (h : Fits c) (hok : StepOk c op) :
    ∃ accepted got c', c.exec op = some (accepted, got, c') ∧ Keeps c accepted got c' := by
  cases op with
  | send toRelay data r =>
    exact ⟨_, _, _, rfl, sendPacket_keeps h hok rfl⟩
  | get r reads =>
    have hflush := flushSend_keeps h r
    have hstream := hflush.stream
    rw [flatten_nil, nil_append] at hstream
    obtain ⟨packet, c', hdone, hkeeps⟩ := readLoop_keeps reads false hflush.fits (hstream ▸ hok)
    exact ⟨_, _, c', by rw [Conn.exec, Conn.getPacket, hdone]; rfl, hflush.trans hkeeps⟩

theorem runs_keeps {ops : List Op} (h : Fits c) (hok : RunOk c ops) :
    ∃ accepted got c', c.runs ops = some (accepted, got, c') ∧ Keeps c accepted got c' := by
  induction ops generalizing c with
  | nil => exact ⟨[], [], c, rfl, .refl h⟩
  | cons op ops ih =>
    obtain ⟨accepted, got, c₁, hexec, hkeeps⟩ := exec_keeps h hok.1
    obtain ⟨accepted', got', c₂, hruns, hkeeps'⟩ := ih hkeeps.fits (hok.2 _ _ _ hexec)
    exact ⟨_, _, c₂, by simp [Conn.runs, hexec, hruns], hkeeps.trans hkeeps'⟩

/-- **The stream takes the accepted packets in order, and the packets that are returned are those of the stream, as
long as every call meets the condition.** -/
theorem runs_start {incoming : List QByte} {ops : List Op} (hok : RunOk (start incoming) ops) :
    ∃ accepted got c', (start incoming).runs ops = some (accepted, got, c') ∧
      c'.written ++ c'.send.pending = accepted.flatten ∧ incoming = got.flatten ++ c'.stream ∧
      (∀ packet ∈ got, IsPacket packet ∧ packet.length ≤ maxOverallmsglen) ∧ Fits c' := by
  have hfits : Fits (start incoming) := ⟨Nat.zero_le _, Nat.zero_le _⟩
  obtain ⟨accepted, got, c', hruns, hkeeps⟩ := runs_keeps hfits hok
  exact ⟨accepted, got, c', hruns, hkeeps.total, hkeeps.stream, hkeeps.packets, hkeeps.fits⟩

/-- A packet with an empty body. -/
def emptyPacket (type : QByte) : List QByte := type :: List.replicate 19 0

/-- A packet that is sent in two parts, and one that comes in two parts. -/
theorem runs_start_parts : ∃ accepted got c', (start (emptyPacket 7)).runs
    [.send true (emptyPacket 1) 5, .get 20 [6], .get 0 [20]] = some (accepted, got, c') ∧
      c'.written ++ c'.send.pending = emptyPacket 1 ∧ got = [emptyPacket 7] := by
  have hok : RunOk (start (emptyPacket 7)) [.send true (emptyPacket 1) 5, .get 20 [6], .get 0 [20]] := by
    refine ⟨fun _ => ⟨fun h => absurd rfl h, fun _ => by decide⟩, ?_⟩
    rintro _ _ _ ⟨⟩
    refine ⟨fun _ => by decide, ?_⟩
    rintro _ _ _ ⟨⟩
    refine ⟨fun _ => by decide, fun _ _ _ _ => trivial⟩
  obtain ⟨accepted, got, c', hruns, htotal, -⟩ := runs_start hok
  cases hruns
  exact ⟨_, _, _, rfl, htotal, rfl⟩

/-- A packet that is longer than `net_message_buffer` is copied past its end. -/
theorem exec_long {data : List QByte} (hwhole : Whole data) (hlen : data.length ≤ bufSize)
    (hlong : maxOverallmsglen < psize data) : (start data).exec (.get 0 [data.length]) = none := by
  have hread : (start data).vfsRead data.length = data := by
    rw [Conn.vfsRead, Int.toNat_natCast, take_take, take_of_length_le]
    · rfl
    · exact le_min le_rfl hlen
  have hne : data ≠ [] := by
    rintro rfl
    exact absurd hwhole.1 (by decide)
  have hpending : ((start data).recv.extend data).pending = data := Window.pending_extend _ _
  have hflush : (start data).flushSend 0 = start data := rfl
  have hattempt : (start data).attempt false = .inr (start data) := rfl
  rw [Conn.exec, Conn.getPacket, hflush, readLoop, hattempt, Sum.elim_inr]
  dsimp only
  rw [hread, if_neg hne, readLoop, Conn.attempt]
  dsimp only
  rw [hpending, if_pos hwhole, if_neg hlong.not_ge]
  rfl

theorem psize_replicate {n : ℕ} (h : 4 ≤ n) (x : QByte) :
    psize (List.replicate n x) = 20 + x.toNat <<< 8 + x.toNat := by
  rw [psize, getD_eq_getElem _ _ (by rw [length_replicate]; omega),
    getD_eq_getElem _ _ (by rw [length_replicate]; omega), getElem_replicate, getElem_replicate]

/-- The bytes `0xff` make a packet of the greatest size. -/
theorem exec_ones : (start (List.replicate 65555 0xff)).exec (.get 0 [65555]) = none := by
  have hsize : psize (List.replicate 65555 0xff) = 65555 := psize_replicate (by decide) _
  have hlength : (List.replicate 65555 (0xff : QByte)).length = 65555 := length_replicate
  have hwhole : Whole (List.replicate 65555 0xff) := by
    rw [Whole, hsize, hlength]
    decide
  have hlong := exec_long hwhole (by rw [hlength]; decide) (by rw [hsize]; decide)
  rwa [hlength] at hlong

/-- A packet that is sent while another waits is put over it, one of which the stream takes nothing is refused and
sent, and one that is too long for `net_message_buffer` is copied past its end. -/
theorem runs_start_lost : (∃ accepted got c', (start []).runs
    [.send true (emptyPacket 1) 5, .send true (emptyPacket 2) 100] = some (accepted, got, c') ∧
      ¬c'.written <+: accepted.flatten) ∧
    (∃ accepted got c', (start []).runs [.send true (emptyPacket 1) 0, .get 100 []] = some (accepted, got, c') ∧
      ¬c'.written <+: accepted.flatten) ∧
    (start (List.replicate 65555 0xff)).runs [.get 0 [65555]] = none :=
  ⟨⟨_, _, _, rfl, by decide⟩, ⟨_, _, _, rfl, by decide⟩, by rw [Conn.runs, exec_ones]; rfl⟩

end TurnTcp

end FteQuake
