import FteQuake.Lib.RingBuffer
import FteQuake.Tv.MvdStream

/-!
# The output ring of a proxy

`Net_TryFlushProxyBuffer`, `Net_ProxySend` and `Prox_SendMessage` of `fteqtv/forward.c`: what goes to a proxy is put in a
ring, whole or not at all, and sent from there as the socket takes it.

Over a websocket what is sent has a header of its own, which `Prox_SendMessage` does not count when it looks for room.
`framed_iff` says from which states a call is whole whatever the socket does, and `run_delivers` what a run of such calls
has sent.
-/

namespace FteQuake

open List Nat

namespace ProxyBuffer

open MvdStream

/-! ## The code -/

/-- What `send` does with what it is given: it takes so many bytes, at most all; it would block; or it fails. -/
inductive SendResult
  | sent (n : ℕ)
  | again
  | error

/-- `oproxy_t`, with the bytes that the peer was sent and how often `send` was called. -/
structure Proxy where
  buffer : Mem Byte
  bufferpos : ℕ
  buffersize : ℕ
  flushing : Bool
  drop : Bool
  written : List Byte
  sends : ℕ

/-- The loop that makes the positions small. -/
def Proxy.unwrap (prox : Proxy) : Proxy :=
  if maxProxyBuffer ≤ prox.bufferpos then
    Proxy.unwrap { prox with
      bufferpos := prox.bufferpos - maxProxyBuffer
      buffersize := prox.buffersize - maxProxyBuffer }
  else prox
termination_by prox.bufferpos
decreasing_by
  unfold maxProxyBuffer at *
  omega

/-- Put bytes behind what is in the ring. -/
def Proxy.append (prox : Proxy) (bytes : List Byte) : Proxy :=
  { prox with
    buffer := Ring.fill maxProxyBuffer prox.buffer prox.buffersize bytes
    buffersize := prox.buffersize + bytes.length }

/-- Whether so many bytes fit. -/
def Proxy.HasRoom (prox : Proxy) (need : ℕ) : Prop := prox.buffersize + need ≤ maxProxyBuffer + prox.bufferpos

instance (prox : Proxy) (need : ℕ) : Decidable (prox.HasRoom need) := inferInstanceAs (Decidable (_ ≤ _))

variable (sock : ℕ → SendResult)

/-- `Net_TryFlushProxyBuffer`. -/
def tryFlushProxyBuffer (prox : Proxy) : Proxy :=
  let prox := prox.unwrap
  let bufpos := prox.bufferpos % maxProxyBuffer
  let length := min (prox.buffersize - prox.bufferpos) (maxProxyBuffer - bufpos)
  if length = 0 then prox
  else
    match sock prox.sends with
    | .sent n =>
      if min n length = 0 then { prox with drop := true, flushing := false, sends := prox.sends + 1 }
      else { prox with
        bufferpos := prox.bufferpos + min n length
        written := prox.written ++ prox.buffer.slice bufpos (min n length)
        sends := prox.sends + 1 }
    | .again => { prox with sends := prox.sends + 1 }
    | .error => { prox with drop := true, flushing := false, sends := prox.sends + 1 }

/-- Try to make room by flushing, if there is too little. -/
def makeRoom (need : ℕ) (prox : Proxy) : Proxy := if prox.HasRoom need then prox else tryFlushProxyBuffer sock prox

/-- The header of a binary frame. -/
def frameHeader (enclen : ℕ) : List Byte :=
  if 126 ≤ enclen then [0x82, 126, BitVec.ofNat 8 (enclen / 256), BitVec.ofNat 8 enclen]
  else [0x82, BitVec.ofNat 8 enclen]

/-- `Net_ProxySend`. -/
def netProxySend (websocket : Bool) (buffer : List Byte) (prox : Proxy) : Proxy :=
  if buffer = [] then prox
  else if websocket then
    let prox := makeRoom sock (buffer.length + 4) prox
    if prox.HasRoom (buffer.length + 4) then
      tryFlushProxyBuffer sock (prox.append (frameHeader buffer.length ++ buffer))
    else { prox with flushing := true }
  else
    let prox := makeRoom sock buffer.length prox
    if prox.HasRoom buffer.length then prox.append buffer else { prox with flushing := true }

/-- The header of a message. -/
def messageHeader (length demType : ℕ) (playermask : BitVec 32) : List Byte :=
  [0, BitVec.ofNat 8 demType] ++ writeLong (BitVec.ofNat 32 length) ++
    if demType = demMultiple then writeLong playermask else []

/-- `Prox_SendMessage`. -/
def proxSendMessage (websocket : Bool) (buf : List Byte) (demType : ℕ) (playermask : BitVec 32) (prox : Proxy) : Proxy :=
  let msg := messageHeader buf.length demType playermask
  let prox := makeRoom sock (buf.length + msg.length) prox
  if prox.HasRoom (buf.length + msg.length) then
    netProxySend sock websocket buf (netProxySend sock websocket msg prox)
  else { prox with flushing := true }

/-- The calls, with whether the proxy is on a websocket then. -/
inductive Op
  | flush
  | send (websocket : Bool) (buffer : List Byte)
  | message (websocket : Bool) (buf : List Byte) (demType : ℕ) (playermask : BitVec 32)

/-- Do a call. -/
def exec (prox : Proxy) : Op → Proxy
  | .flush => tryFlushProxyBuffer sock prox
  | .send websocket buffer => netProxySend sock websocket buffer prox
  | .message websocket buf demType playermask => proxSendMessage sock websocket buf demType playermask prox

/-- Do calls one after another. -/
def run (prox : Proxy) (ops : List Op) : Proxy := ops.foldl (exec sock) prox

/-- A new proxy; anything may be in its ring. -/
def start (junk : Mem Byte) : Proxy := ⟨junk, 0, 0, false, false, [], 0⟩

/-! ## What calls are for -/

/-- The frame of some bytes; there is none for no bytes. -/
def frame (bytes : List Byte) : List Byte := if bytes = [] then [] else frameHeader bytes.length ++ bytes

/-- How bytes are sent. -/
def encode (websocket : Bool) (bytes : List Byte) : List Byte := if websocket then frame bytes else bytes

namespace Op

/-- What a call puts into the stream. -/
def encoding : Op → List Byte
  | flush => []
  | send websocket buffer => encode websocket buffer
  | message websocket buf demType playermask =>
    encode websocket (messageHeader buf.length demType playermask) ++ encode websocket buf

/-- Whether a call is made over a websocket. -/
def websocket : Op → Bool
  | flush => false
  | send websocket _ => websocket
  | message websocket _ _ _ => websocket

/-- What a call is to bring to the peer. -/
def bytes : Op → List Byte
  | flush => []
  | send _ buffer => buffer
  | message _ buf demType playermask => messageHeader buf.length demType playermask ++ buf

end Op

/-- The first frame of a stream, as `NET_WebSocketRecv` reads binary frames without a mask. -/
def readFrame : List Byte → Option (List Byte × List Byte)
  | ctrl :: len :: rest =>
    if ctrl ≠ 0x82 then none
    else if len.toNat < 126 then
      if rest.length < len.toNat then none else some (rest.take len.toNat, rest.drop len.toNat)
    else if len = 126 then
      match rest with
      | hi :: lo :: rest =>
        let paylen := hi.toNat * 256 + lo.toNat
        if paylen < 126 ∨ rest.length < paylen then none else some (rest.take paylen, rest.drop paylen)
      | _ => none
    else none
  | _ => none

theorem length_of_readFrame {bytes payload rest : List Byte} (h : readFrame bytes = some (payload, rest)) :
    payload.length + rest.length + 2 ≤ bytes.length := by
  unfold readFrame at h
  split at h
  · split_ifs at h with h₁ h₂ h₃ h₄
    · simp only [Option.some.injEq, Prod.mk.injEq] at h
      obtain ⟨rfl, rfl⟩ := h
      simp only [length_take, length_drop, length_cons]
      omega
    · split at h
      · dsimp only at h
        split_ifs at h
        simp only [Option.some.injEq, Prod.mk.injEq] at h
        obtain ⟨rfl, rfl⟩ := h
        simp only [length_take, length_drop, length_cons]
        omega
      · cases h
  · cases h

/-- The bytes of the frames of a stream. -/
def readFrames (bytes : List Byte) : Option (List Byte) :=
  if bytes = [] then some []
  else
    match _h : readFrame bytes with
    | none => none
    | some (payload, rest) => (readFrames rest).map (payload ++ ·)
termination_by bytes.length
decreasing_by
  have := length_of_readFrame _h
  omega

/-- Over a websocket the peer finds the bytes of the call. -/
def Op.Decodes (op : Op) : Prop := op.websocket = true → readFrames op.encoding = some op.bytes

namespace Proxy

/-- What is in the ring. -/
def pending (prox : Proxy) : List Byte := Ring.content maxProxyBuffer prox.buffer prox.bufferpos prox.buffersize

/-- What the peer was sent and what is in the ring. -/
def stream (prox : Proxy) : List Byte := prox.written ++ prox.pending

/-- How much is in the ring. -/
def used (prox : Proxy) : ℕ := prox.buffersize - prox.bufferpos

/-- The positions are in order, and not further apart than the ring is long. -/
structure Valid (prox : Proxy) : Prop where
  le : prox.bufferpos ≤ prox.buffersize
  le_max : prox.buffersize ≤ prox.bufferpos + maxProxyBuffer

end Proxy

/-- A call is whole: it adds nothing, or all that it encodes to, of which the peer can make sense. -/
def Whole (prox : Proxy) (op : Op) : Prop :=
  (exec sock prox op).stream = prox.stream ∨
    (exec sock prox op).stream = prox.stream ++ op.encoding ∧ op.Decodes

/-- So many bytes do not get room, whatever the socket does. -/
def Refused (prox : Proxy) (need : ℕ) : Prop :=
  maxProxyBuffer < need ∨ maxProxyBuffer + (maxProxyBuffer - prox.bufferpos % maxProxyBuffer) < prox.used + need

/-- Over a websocket the length fits into 16 bits, and there is room for the headers of both frames of a message. -/
def Framed (prox : Proxy) : Op → Prop
  | .flush => True
  | .send websocket buffer => websocket = false ∨ buffer.length < 65536 ∨ Refused prox (buffer.length + 4)
  | .message websocket buf demType playermask =>
    let length := (messageHeader buf.length demType playermask).length
    websocket = false ∨ Refused prox (buf.length + length) ∨
      buf.length < 65536 ∧ (buf = [] ∨ prox.used + (length + 2 + (buf.length + 4)) ≤ maxProxyBuffer)

/-- Every call of a run is framed. -/
def FramedRun : Proxy → List Op → Prop
  | _, [] => True
  | prox, op :: ops => Framed prox op ∧ FramedRun (exec sock prox op) ops

variable {prox : Proxy}

/-! ## Flushing -/

namespace Proxy

theorem Valid.used_le (h : prox.Valid) : prox.used ≤ maxProxyBuffer := by
  have := h.le_max
  unfold used
  omega

theorem Valid.hasRoom_iff (h : prox.Valid) {need : ℕ} : prox.HasRoom need ↔ prox.used + need ≤ maxProxyBuffer := by
  have := h.le
  unfold HasRoom used
  omega

/-- Making the positions small changes nothing else. -/
structure Unwrapped (prox prox' : Proxy) : Prop where
  bufferpos : prox'.bufferpos = prox.bufferpos % maxProxyBuffer
  used : prox'.used = prox.used
  le : prox'.bufferpos ≤ prox'.buffersize
  pending : prox'.pending = prox.pending
  written : prox'.written = prox.written
  sends : prox'.sends = prox.sends

theorem unwrap_spec (h : prox.Valid) : Unwrapped prox prox.unwrap := by
  induction prox using Proxy.unwrap.induct with
  | case1 prox hpos ih =>
    have hle := h.le
    obtain ⟨hpos', hused, hle', hpending, hwritten, hsends⟩ := ih ⟨by dsimp only; omega, by
      have := h.le_max
      dsimp only
      omega⟩
    rw [unwrap, if_pos hpos]
    refine ⟨?_, ?_, hle', ?_, hwritten, hsends⟩
    · rw [hpos', mod_eq_sub_mod hpos]
    · rw [hused]
      unfold used
      dsimp only
      omega
    · rw [hpending]
      unfold pending
      dsimp only
      rw [← Ring.content_add_size, Nat.sub_add_cancel hpos, Nat.sub_add_cancel (hpos.trans hle)]
  | case2 prox hpos =>
    rw [unwrap, if_neg hpos]
    exact ⟨(mod_eq_of_lt (not_le.mp hpos)).symm, rfl, h.le, rfl, rfl, rfl⟩

end Proxy

/-- What a flush does: it takes bytes from the front of the ring, not beyond where it wraps. -/
structure Flushed (prox prox' : Proxy) : Prop where
  valid : prox'.Valid
  stream : prox'.stream = prox.stream
  used_le : prox'.used ≤ prox.used
  le_used : prox.used ≤ prox'.used + (maxProxyBuffer - prox.bufferpos % maxProxyBuffer)

theorem Proxy.Unwrapped.flushed (h : prox.Valid) {prox' : Proxy} (hu : Proxy.Unwrapped prox prox') : Flushed prox prox' := by
  refine ⟨⟨hu.le, ?_⟩, ?_, hu.used.le, hu.used ▸ le_add_right _ _⟩
  · have hused : prox'.buffersize - prox'.bufferpos ≤ maxProxyBuffer := hu.used.trans_le h.used_le
    omega
  · rw [Proxy.stream, hu.written, hu.pending, Proxy.stream]

/-- Taking bytes from the front of the ring. -/
theorem flushed_advance {k : ℕ} (h : prox.Valid) {p : Proxy} (hu : Proxy.Unwrapped prox p)
    (hk : k ≤ min (p.buffersize - p.bufferpos) (maxProxyBuffer - p.bufferpos % maxProxyBuffer)) :
    Flushed prox { p with
        bufferpos := p.bufferpos + k
        written := p.written ++ p.buffer.slice (p.bufferpos % maxProxyBuffer) k
        sends := p.sends + 1 } := by
  obtain ⟨hused, hwrap⟩ := le_min_iff.mp hk
  have hlt := mod_lt prox.bufferpos (show maxProxyBuffer > 0 by unfold maxProxyBuffer; omega)
  have hmod : p.bufferpos % maxProxyBuffer = p.bufferpos := by rw [hu.bufferpos, mod_mod]
  have hf := Proxy.Unwrapped.flushed h hu
  have hle := hf.valid.le
  have hle' := hf.valid.le_max
  have hpos := hu.bufferpos
  have hsame : p.buffersize - p.bufferpos = prox.used := hu.used
  refine ⟨⟨by dsimp only; omega, by dsimp only; omega⟩, ?_, ?_, ?_⟩
  · rw [← hf.stream, Proxy.stream, Proxy.stream, Proxy.pending, Proxy.pending]
    dsimp only
    rw [Ring.slice_mod (by omega), append_assoc, Ring.content_append (by omega) (by omega)]
  · unfold Proxy.used
    dsimp only
    change _ ≤ prox.used
    omega
  · unfold Proxy.used
    dsimp only
    change prox.used ≤ _
    omega

theorem tryFlushProxyBuffer_spec (h : prox.Valid) : Flushed prox (tryFlushProxyBuffer sock prox) := by
  have hu := Proxy.unwrap_spec h
  have hf := hu.flushed h
  unfold tryFlushProxyBuffer
  dsimp only
  split_ifs
  · exact hf
  · split
    · split_ifs
      · exact ⟨⟨hf.valid.le, hf.valid.le_max⟩, hf.stream, hf.used_le, hf.le_used⟩
      · exact flushed_advance h hu (min_le_right _ _)
    · exact ⟨⟨hf.valid.le, hf.valid.le_max⟩, hf.stream, hf.used_le, hf.le_used⟩
    · exact ⟨⟨hf.valid.le, hf.valid.le_max⟩, hf.stream, hf.used_le, hf.le_used⟩

theorem Proxy.append_spec {bytes : List Byte} (h : prox.Valid) (hroom : prox.used + bytes.length ≤ maxProxyBuffer) :
    (prox.append bytes).Valid ∧ (prox.append bytes).stream = prox.stream ++ bytes ∧
      (prox.append bytes).used = prox.used + bytes.length := by
  have hle := h.le
  have hroom' : prox.buffersize + bytes.length ≤ prox.bufferpos + maxProxyBuffer := by
    unfold used at hroom
    omega
  refine ⟨⟨?_, hroom'⟩, ?_, ?_⟩
  · change _ ≤ prox.buffersize + bytes.length
    exact hle.trans (le_add_right _ _)
  · rw [stream, stream, append_assoc]
    exact congrArg (prox.written ++ ·) (Ring.content_fill hle hroom')
  · change prox.buffersize + bytes.length - prox.bufferpos = prox.buffersize - prox.bufferpos + bytes.length
    omega

/-! ## Sending -/

/-- The ring after some bytes were put into it, and perhaps some sent. -/
structure Sent (prox prox' : Proxy) (bytes : List Byte) : Prop where
  valid : prox'.Valid
  stream : prox'.stream = prox.stream ++ bytes
  used_le : prox'.used ≤ prox.used + bytes.length

theorem Flushed.sent {prox' : Proxy} (h : Flushed prox prox') : Sent prox prox' [] :=
  ⟨h.valid, by rw [h.stream, append_nil], h.used_le⟩

theorem Sent.trans {p q : Proxy} {xs ys : List Byte} (h : Sent prox p xs) (h' : Sent p q ys) : Sent prox q (xs ++ ys) := by
  refine ⟨h'.valid, by rw [h'.stream, h.stream, append_assoc], ?_⟩
  have := h.used_le
  have := h'.used_le
  rw [length_append]
  omega

theorem Proxy.append_sent {bytes : List Byte} (h : prox.Valid) (hroom : prox.used + bytes.length ≤ maxProxyBuffer) :
    Sent prox (prox.append bytes) bytes := by
  obtain ⟨hvalid, hstream, hused⟩ := prox.append_spec h hroom
  exact ⟨hvalid, hstream, hused.le⟩

theorem Sent.refl (h : prox.Valid) : Sent prox prox [] := ⟨h, (append_nil _).symm, le_add_right _ _⟩

theorem makeRoom_spec (h : prox.Valid) (need : ℕ) : Flushed prox (makeRoom sock need prox) := by
  unfold makeRoom
  split_ifs
  · exact ⟨h, rfl, le_rfl, le_add_right _ _⟩
  · exact tryFlushProxyBuffer_spec sock h

/-- How much room `Net_ProxySend` looks for. -/
def roomFor (websocket : Bool) (bytes : List Byte) : ℕ := if websocket then bytes.length + 4 else bytes.length

theorem length_frameHeader_le (n : ℕ) : (frameHeader n).length ≤ 4 := by
  unfold frameHeader
  split_ifs <;> simp

variable (websocket : Bool)

theorem encode_nil : encode websocket [] = [] := by
  cases websocket <;> simp [encode, frame]

theorem length_encode_le (bytes : List Byte) : (encode websocket bytes).length ≤ roomFor websocket bytes := by
  unfold encode roomFor frame
  split_ifs
  · exact zero_le _
  · rw [length_append]
    have := length_frameHeader_le bytes.length
    omega
  · exact le_rfl

/-- `Net_ProxySend` is one call for both ways of sending, except that a websocket is flushed at once. -/
theorem netProxySend_eq {websocket : Bool} {bytes : List Byte} (hne : bytes ≠ []) :
    netProxySend sock websocket bytes prox =
      if (makeRoom sock (roomFor websocket bytes) prox).HasRoom (roomFor websocket bytes) then
        if websocket then
          tryFlushProxyBuffer sock ((makeRoom sock (roomFor websocket bytes) prox).append (encode websocket bytes))
        else (makeRoom sock (roomFor websocket bytes) prox).append (encode websocket bytes)
      else { makeRoom sock (roomFor websocket bytes) prox with flushing := true } := by
  unfold netProxySend roomFor encode frame
  rw [if_neg hne, if_neg hne]
  cases websocket <;> rfl

/-- What `Net_ProxySend` does: it adds the whole encoding, if it finds room, or nothing. -/
theorem netProxySend_spec (h : prox.Valid) (websocket : Bool) (bytes : List Byte) :
    Sent prox (netProxySend sock websocket bytes prox)
      (if (makeRoom sock (roomFor websocket bytes) prox).HasRoom (roomFor websocket bytes) then encode websocket bytes
        else []) := by
  by_cases hne : bytes = []
  · subst hne
    rw [encode_nil, ite_self, netProxySend, if_pos rfl]
    exact .refl h
  rw [netProxySend_eq sock hne]
  have hroom := makeRoom_spec sock h (roomFor websocket bytes)
  split_ifs with hhas hws
  · have hhas' := hroom.valid.hasRoom_iff.mp hhas
    have hadd := hroom.sent.trans (Proxy.append_sent hroom.valid
      ((Nat.add_le_add_left (length_encode_le websocket bytes) _).trans hhas'))
    have hflush := hadd.trans (tryFlushProxyBuffer_spec sock hadd.valid).sent
    rwa [append_nil] at hflush
  · have hhas' := hroom.valid.hasRoom_iff.mp hhas
    exact hroom.sent.trans (Proxy.append_sent hroom.valid
      ((Nat.add_le_add_left (length_encode_le websocket bytes) _).trans hhas'))
  · have := hroom.sent
    exact ⟨⟨this.valid.le, this.valid.le_max⟩, this.stream, this.used_le⟩

/-- While there is room, `Net_ProxySend` adds the encoding. -/
theorem netProxySend_fits (h : prox.Valid) {websocket : Bool} {bytes : List Byte}
    (hroom : prox.used + roomFor websocket bytes ≤ maxProxyBuffer) :
    Sent prox (netProxySend sock websocket bytes prox) (encode websocket bytes) := by
  have hspec := netProxySend_spec sock h websocket bytes
  have hhas := h.hasRoom_iff.mpr hroom
  rwa [makeRoom, if_pos hhas, if_pos hhas] at hspec

/-- What has no chance of room does not find any. -/
theorem Refused.not_hasRoom {need : ℕ} (h : prox.Valid) (href : Refused prox need) :
    ¬ (makeRoom sock need prox).HasRoom need := by
  have hroom := makeRoom_spec sock h need
  rw [hroom.valid.hasRoom_iff]
  have := hroom.le_used
  rcases href with href | href <;> omega

/-! ## Framed calls are whole -/

variable (length demType : ℕ)

theorem length_messageHeader (playermask : BitVec 32) :
    (messageHeader length demType playermask).length = if demType = demMultiple then 10 else 6 := by
  unfold messageHeader
  split_ifs <;> rfl

theorem messageHeader_ne_nil (playermask : BitVec 32) :
    messageHeader length demType playermask ≠ [] := by
  simp [messageHeader]

theorem length_messageHeader_mem (playermask : BitVec 32) :
    6 ≤ (messageHeader length demType playermask).length ∧ (messageHeader length demType playermask).length ≤ 10 := by
  rw [length_messageHeader]
  split_ifs <;> omega

/-- The headers of short frames are short. -/
theorem length_frame_of_lt {bytes : List Byte} (hne : bytes ≠ []) (h : bytes.length < 126) :
    (frame bytes).length = bytes.length + 2 := by
  rw [frame, if_neg hne, length_append, frameHeader, if_neg (by omega)]
  exact add_comm _ _

theorem frame_append_ne_nil {bytes : List Byte} (hne : bytes ≠ []) (rest : List Byte) : frame bytes ++ rest ≠ [] := by
  rw [frame, if_neg hne]
  exact append_ne_nil_of_left_ne_nil (append_ne_nil_of_right_ne_nil _ hne) _

theorem readFrame_short {len : Byte} {rest : List Byte} (h : len.toNat < 126) : readFrame (0x82 :: len :: rest) =
    if rest.length < len.toNat then none else some (rest.take len.toNat, rest.drop len.toNat) := by
  unfold readFrame
  dsimp only
  rw [if_neg (not_not.mpr rfl), if_pos h]

theorem readFrame_long {hi lo : Byte} {rest : List Byte} : readFrame (0x82 :: 126 :: hi :: lo :: rest) =
    if hi.toNat * 256 + lo.toNat < 126 ∨ rest.length < hi.toNat * 256 + lo.toNat then none
    else some (rest.take (hi.toNat * 256 + lo.toNat), rest.drop (hi.toNat * 256 + lo.toNat)) := by
  rw [readFrame, if_neg (not_not.mpr rfl), if_neg (by decide), if_pos rfl]

theorem readFrames_of_readFrame {bytes payload rest : List Byte} (h : readFrame bytes = some (payload, rest)) :
    readFrames bytes = (readFrames rest).map (payload ++ ·) := by
  have hlen := length_of_readFrame h
  rw [readFrames, if_neg (ne_nil_of_length_pos (by omega))]
  split
  · rename_i hnone
    rw [h] at hnone
    cases hnone
  · rename_i hsome
    rw [h] at hsome
    cases hsome
    rfl

/-- The peer finds the bytes of a frame whose length fits into 16 bits. -/
theorem readFrames_frame {bytes : List Byte} (h : bytes.length < 65536) (rest : List Byte) :
    readFrames (frame bytes ++ rest) = (readFrames rest).map (bytes ++ ·) := by
  by_cases hne : bytes = []
  · subst hne
    simp [frame]
  apply readFrames_of_readFrame
  rw [frame, if_neg hne, frameHeader]
  split_ifs with hlong
  · have hlen : (BitVec.ofNat 8 (bytes.length / 256)).toNat * 256 + (BitVec.ofNat 8 bytes.length).toNat =
        bytes.length := by
      rw [BitVec.toNat_ofNat, BitVec.toNat_ofNat]
      omega
    change readFrame (0x82 :: 126 :: _ :: _ :: (bytes ++ rest)) = _
    rw [readFrame_long, hlen, if_neg (by simp [hlong]), take_left, drop_left]
  · have hlen : (BitVec.ofNat 8 bytes.length).toNat = bytes.length := by
      rw [BitVec.toNat_ofNat]
      omega
    change readFrame (0x82 :: _ :: (bytes ++ rest)) = _
    rw [readFrame_short (by omega), hlen, if_neg (by simp), take_left, drop_left]

theorem readFrames_nil : readFrames [] = some [] := by rw [readFrames, if_pos rfl]

theorem readFrames_frame_self {bytes : List Byte} (h : bytes.length < 65536) : readFrames (frame bytes) = some bytes := by
  have hread := readFrames_frame h []
  rwa [append_nil, readFrames_nil, Option.map_some, append_nil] at hread

/-- With the bytes of its frames a stream has always something else. -/
theorem length_of_readFrames {bytes payload : List Byte} (h : readFrames bytes = some payload) :
    payload.length ≤ bytes.length ∧ (bytes ≠ [] → payload.length < bytes.length) := by
  induction bytes using readFrames.induct generalizing payload with
  | case1 =>
    rw [readFrames, if_pos rfl] at h
    cases h
    simp
  | case2 bytes hne hnone =>
    rw [readFrames, if_neg hne] at h
    split at h
    · cases h
    · rename_i hsome
      rw [hnone] at hsome
      cases hsome
  | case3 bytes hne first rest hsome ih =>
    rw [readFrames_of_readFrame hsome, Option.map_eq_some_iff] at h
    obtain ⟨more, hmore, rfl⟩ := h
    have hlen := length_of_readFrame hsome
    have := (ih hmore).1
    rw [length_append]
    exact ⟨by omega, fun _ => by omega⟩

/-- The peer does not find the bytes of a longer frame. -/
theorem readFrames_frame_ne {bytes : List Byte} (h : 65536 ≤ bytes.length) (h' : bytes.length < 131072) :
    readFrames (frame bytes) ≠ some bytes := by
  intro hread
  have hne : bytes ≠ [] := ne_nil_of_length_pos (by omega)
  have hlen : (BitVec.ofNat 8 (bytes.length / 256)).toNat * 256 + (BitVec.ofNat 8 bytes.length).toNat =
      bytes.length - 65536 := by
    rw [BitVec.toNat_ofNat, BitVec.toNat_ofNat]
    omega
  have hframe : frame bytes =
      0x82 :: 126 :: BitVec.ofNat 8 (bytes.length / 256) :: BitVec.ofNat 8 bytes.length :: bytes := by
    rw [frame, if_neg hne, frameHeader, if_pos (by omega)]
    rfl
  have hfirst := @readFrame_long (BitVec.ofNat 8 (bytes.length / 256)) (BitVec.ofNat 8 bytes.length) bytes
  rw [hlen, ← hframe] at hfirst
  split_ifs at hfirst with hbad
  · rw [readFrames, if_neg (by simp [hframe])] at hread
    split at hread
    · cases hread
    · rename_i hsome
      rw [hfirst] at hsome
      cases hsome
  · -- what is left would have to be the frames of itself
    rw [readFrames_of_readFrame hfirst, Option.map_eq_some_iff] at hread
    obtain ⟨more, hmore, heq⟩ := hread
    have hrest : more = bytes.drop (bytes.length - 65536) :=
      append_cancel_left (heq.trans (take_append_drop _ _).symm)
    have hlt := (length_of_readFrames hmore).2 (ne_nil_of_length_pos (by rw [length_drop]; omega))
    rw [hrest] at hlt
    omega

theorem length_encode_messageHeader (length demType : ℕ) (playermask : BitVec 32) :
    (encode websocket (messageHeader length demType playermask)).length =
      (messageHeader length demType playermask).length + if websocket then 2 else 0 := by
  unfold encode
  split_ifs
  · have := length_messageHeader_mem length demType playermask
    exact length_frame_of_lt (messageHeader_ne_nil _ _ _) (by omega)
  · rfl

/-- `Prox_SendMessage` adds what its two calls add, if it finds room itself. -/
theorem proxSendMessage_spec (h : prox.Valid) (websocket : Bool) (buf : List Byte) (demType : ℕ) (playermask : BitVec 32) :
    ∃ xs, (xs = [] ∨ xs = encode websocket (messageHeader buf.length demType playermask) ∨ xs = encode websocket buf ∨
        xs = (Op.message websocket buf demType playermask).encoding) ∧
      Sent prox (proxSendMessage sock websocket buf demType playermask prox) xs := by
  unfold proxSendMessage
  dsimp only
  have hroom := makeRoom_spec sock h (buf.length + (messageHeader buf.length demType playermask).length)
  split_ifs
  · have hhead := netProxySend_spec sock hroom.valid websocket (messageHeader buf.length demType playermask)
    have hbody := netProxySend_spec sock hhead.valid websocket buf
    refine ⟨_, ?_, by simpa only [nil_append] using (hroom.sent.trans hhead).trans hbody⟩
    split_ifs <;> simp [Op.encoding]
  · have := hroom.sent
    exact ⟨[], .inl rfl, ⟨this.valid.le, this.valid.le_max⟩, this.stream, this.used_le⟩

/-- Every call keeps the positions in order. -/
theorem exec_valid (h : prox.Valid) (op : Op) : (exec sock prox op).Valid := by
  cases op with
  | flush => exact (tryFlushProxyBuffer_spec sock h).valid
  | send websocket buffer => exact (netProxySend_spec sock h websocket buffer).valid
  | message websocket buf demType playermask =>
    obtain ⟨xs, -, hsent⟩ := proxSendMessage_spec sock h websocket buf demType playermask
    exact hsent.valid

/-- Two calls for which there is room one after the other. -/
theorem netProxySend_twice (h : prox.Valid) {websocket : Bool} {head body : List Byte}
    (hhead : prox.used + roomFor websocket head ≤ maxProxyBuffer)
    (hbody : prox.used + (encode websocket head).length + roomFor websocket body ≤ maxProxyBuffer) :
    Sent prox (netProxySend sock websocket body (netProxySend sock websocket head prox))
      (encode websocket head ++ encode websocket body) := by
  have hfirst := netProxySend_fits sock h hhead
  have := hfirst.used_le
  exact hfirst.trans (netProxySend_fits sock hfirst.valid (by omega))

theorem Op.decodes_message {websocket : Bool} {buf : List Byte} {demType : ℕ} {playermask : BitVec 32}
    (h : websocket = true → buf.length < 65536) : (Op.message websocket buf demType playermask).Decodes := by
  rintro (rfl : websocket = true)
  have := length_messageHeader_mem buf.length demType playermask
  change readFrames (frame (messageHeader buf.length demType playermask) ++ frame buf) = _
  rw [readFrames_frame (by omega), readFrames_frame_self (h rfl), Option.map_some]
  rfl

/-- A framed call is whole. -/
theorem whole_of_framed (h : prox.Valid) {op : Op} (hop : Framed prox op) : Whole sock prox op := by
  cases op with
  | flush => exact .inl (tryFlushProxyBuffer_spec sock h).stream
  | send websocket buffer =>
    have hsent := netProxySend_spec sock h websocket buffer
    split_ifs at hsent with hhas
    · refine .inr ⟨hsent.stream, ?_⟩
      rintro (rfl : websocket = true)
      rcases hop with hop | hop | hop
      · cases hop
      · exact readFrames_frame_self hop
      · exact absurd hhas (hop.not_hasRoom sock h)
    · exact .inl (hsent.stream.trans (append_nil _))
  | message websocket buf demType playermask =>
    have hroom := makeRoom_spec sock h (buf.length + (messageHeader buf.length demType playermask).length)
    by_cases hhas : (makeRoom sock (buf.length + (messageHeader buf.length demType playermask).length) prox).HasRoom
        (buf.length + (messageHeader buf.length demType playermask).length)
    · have hexec : exec sock prox (.message websocket buf demType playermask) =
          netProxySend sock websocket buf (netProxySend sock websocket (messageHeader buf.length demType playermask)
            (makeRoom sock (buf.length + (messageHeader buf.length demType playermask).length) prox)) := if_pos hhas
      have hhas' := hroom.valid.hasRoom_iff.mp hhas
      have hlen := length_encode_messageHeader websocket buf.length demType playermask
      have hlen' := length_messageHeader_mem buf.length demType playermask
      have hused := hroom.used_le
      rw [Whole, hexec]
      rcases hop with rfl | hop | ⟨hshort, hbuf | hfits⟩
      · refine .inr ⟨?_, Op.decodes_message nofun⟩
        rw [(netProxySend_twice sock hroom.valid (by rw [roomFor]; simp only [Bool.false_eq_true, if_false] at *; omega)
          (by rw [roomFor]; simp only [Bool.false_eq_true, if_false] at *; omega)).stream, hroom.stream]
        rfl
      · exact absurd hhas (hop.not_hasRoom sock h)
      · -- an empty body has no frame
        have hsent := netProxySend_spec sock hroom.valid websocket (messageHeader buf.length demType playermask)
        have hbody : ∀ prox, netProxySend sock websocket buf prox = prox := fun _ => if_pos hbuf
        have hnone : encode websocket buf = [] := by rw [hbuf, encode_nil]
        rw [hbody]
        split_ifs at hsent
        · refine .inr ⟨?_, Op.decodes_message fun _ => hshort⟩
          rw [hsent.stream, hroom.stream, Op.encoding, hnone, append_nil]
        · exact .inl ((hsent.stream.trans (append_nil _)).trans hroom.stream)
      · refine .inr ⟨?_, Op.decodes_message fun _ => hshort⟩
        have hle : ∀ bytes : List Byte, roomFor websocket bytes ≤ bytes.length + 4 := by
          intro bytes
          unfold roomFor
          split_ifs <;> omega
        have hle' := hle buf
        have hle'' := hle (messageHeader buf.length demType playermask)
        rw [(netProxySend_twice sock hroom.valid (by omega) (by split_ifs at hlen <;> omega)).stream, hroom.stream]
        rfl
    · refine .inl ?_
      have hexec : exec sock prox (.message websocket buf demType playermask) =
          { makeRoom sock (buf.length + (messageHeader buf.length demType playermask).length) prox with flushing := true } :=
        if_neg hhas
      rw [hexec]
      exact hroom.stream

/-! ## Other calls are not -/

/-- From now on the socket takes nothing. -/
def Quiet (prox : Proxy) : Prop := ∀ i, prox.sends ≤ i → sock i = .again

variable {sock}

theorem tryFlushProxyBuffer_quiet (h : prox.Valid) (hq : Quiet sock prox) :
    (tryFlushProxyBuffer sock prox).used = prox.used ∧ Quiet sock (tryFlushProxyBuffer sock prox) := by
  have hu := Proxy.unwrap_spec h
  unfold tryFlushProxyBuffer
  dsimp only
  split_ifs
  · exact ⟨hu.used, fun i hi => hq i (hu.sends ▸ hi)⟩
  · rw [hq _ hu.sends.ge]
    have hsends := hu.sends
    exact ⟨hu.used, fun i (hi : prox.unwrap.sends + 1 ≤ i) => hq i (by omega)⟩

theorem makeRoom_quiet (h : prox.Valid) (hq : Quiet sock prox) (need : ℕ) :
    (makeRoom sock need prox).used = prox.used ∧ Quiet sock (makeRoom sock need prox) := by
  unfold makeRoom
  split_ifs
  · exact ⟨rfl, hq⟩
  · exact tryFlushProxyBuffer_quiet h hq

/-- While the socket takes nothing, `Net_ProxySend` adds the encoding if there is room, and only then. -/
theorem netProxySend_quiet (h : prox.Valid) (hq : Quiet sock prox) (websocket : Bool) {bytes : List Byte} (hne : bytes ≠ []) :
    ∃ xs, (xs = encode websocket bytes ∧ prox.used + roomFor websocket bytes ≤ maxProxyBuffer ∨
        xs = [] ∧ maxProxyBuffer < prox.used + roomFor websocket bytes) ∧
      (netProxySend sock websocket bytes prox).stream = prox.stream ++ xs ∧
      (netProxySend sock websocket bytes prox).used = prox.used + xs.length ∧
      Quiet sock (netProxySend sock websocket bytes prox) := by
  have hroom := makeRoom_spec sock h (roomFor websocket bytes)
  obtain ⟨hused, hq'⟩ := makeRoom_quiet h hq (roomFor websocket bytes)
  rw [netProxySend_eq sock hne]
  simp only [hroom.valid.hasRoom_iff, hused]
  split_ifs with hhas hws
  · obtain ⟨hvalid, hstream, hlen⟩ := Proxy.append_spec hroom.valid (show _ + (encode websocket bytes).length ≤ _ by
      rw [hused]
      exact (Nat.add_le_add_left (length_encode_le websocket bytes) _).trans hhas)
    obtain ⟨hused', hq''⟩ := tryFlushProxyBuffer_quiet hvalid (show Quiet sock _ from hq')
    exact ⟨_, .inl ⟨rfl, hhas⟩, by rw [(tryFlushProxyBuffer_spec sock hvalid).stream, hstream, hroom.stream],
      by rw [hused', hlen, hused], hq''⟩
  · obtain ⟨-, hstream, hlen⟩ := Proxy.append_spec hroom.valid (show _ + (encode websocket bytes).length ≤ _ by
      rw [hused]
      exact (Nat.add_le_add_left (length_encode_le websocket bytes) _).trans hhas)
    exact ⟨_, .inl ⟨rfl, hhas⟩, by rw [hstream, hroom.stream], by rw [hlen, hused], hq'⟩
  · exact ⟨[], .inr ⟨rfl, not_le.mp hhas⟩, hroom.stream.trans (append_nil _).symm, hused, hq'⟩

/-- A socket that makes just the room that is looked for, and takes nothing from then on. -/
theorem exists_makeRoom (h : prox.Valid) {need : ℕ} (href : ¬ Refused prox need) : ∃ sock,
    (makeRoom sock need prox).HasRoom need ∧ Quiet sock (makeRoom sock need prox) ∧
      (prox.used + need ≤ maxProxyBuffer → (makeRoom sock need prox).used = prox.used) ∧
      (maxProxyBuffer < prox.used + need → (makeRoom sock need prox).used + need = maxProxyBuffer) := by
  obtain ⟨hneed, hwrap⟩ : need ≤ maxProxyBuffer ∧
      prox.used + need ≤ maxProxyBuffer + (maxProxyBuffer - prox.bufferpos % maxProxyBuffer) := by
    simpa only [Refused, not_or, not_lt] using href
  by_cases hfits : prox.used + need ≤ maxProxyBuffer
  · have hhas := h.hasRoom_iff.mpr hfits
    refine ⟨fun _ => .again, ?_⟩
    rw [makeRoom, if_pos hhas]
    exact ⟨hhas, fun _ _ => rfl, fun _ => rfl, fun hlt => absurd hfits (not_le.mpr hlt)⟩
  · have hu := Proxy.unwrap_spec h
    have hused : prox.unwrap.buffersize - prox.unwrap.bufferpos = prox.used := hu.used
    set k := prox.used + need - maxProxyBuffer with hk
    set sock : ℕ → SendResult := fun i => if i = prox.sends then .sent k else .again with hsock
    have hroom := makeRoom_spec sock h need
    have hmod : prox.unwrap.bufferpos % maxProxyBuffer = prox.bufferpos % maxProxyBuffer := by rw [hu.bufferpos, mod_mod]
    have hlt := mod_lt prox.bufferpos (show maxProxyBuffer > 0 by unfold maxProxyBuffer; omega)
    have hrun : (makeRoom sock need prox).used = prox.used - k ∧ (makeRoom sock need prox).sends = prox.sends + 1 := by
      rw [makeRoom, if_neg fun hhas => hfits (h.hasRoom_iff.mp hhas)]
      unfold tryFlushProxyBuffer
      dsimp only
      rw [hused, hmod, if_neg (by omega), show sock prox.unwrap.sends = .sent k from if_pos hu.sends]
      dsimp only
      rw [min_eq_left (by omega), if_neg (by omega)]
      refine ⟨?_, by rw [hu.sends]⟩
      unfold Proxy.used
      dsimp only
      change _ = prox.used - k
      omega
    refine ⟨sock, ?_, ?_, fun hle => absurd hle hfits, fun _ => by omega⟩
    · rw [hroom.valid.hasRoom_iff]
      omega
    · intro i hi
      exact if_neg (by omega)

theorem encode_ne_nil {bytes : List Byte} (hne : bytes ≠ []) : encode websocket bytes ≠ [] := by
  unfold encode
  split_ifs
  · have := frame_append_ne_nil hne []
    rwa [append_nil] at this
  · exact hne

/-- A message that finds the room it looks for, and not that for its headers, is not whole. -/
theorem exists_not_whole_message (h : prox.Valid) {buf : List Byte} {demType : ℕ} {playermask : BitVec 32}
    (href : ¬ Refused prox (buf.length + (messageHeader buf.length demType playermask).length))
    (hcond : ¬ (buf.length < 65536 ∧ (buf = [] ∨ prox.used +
      ((messageHeader buf.length demType playermask).length + 2 + (buf.length + 4)) ≤ maxProxyBuffer))) :
    ∃ sock, ¬ Whole sock prox (.message true buf demType playermask) := by
  have hlen := length_messageHeader_mem buf.length demType playermask
  have hlen' : (encode true (messageHeader buf.length demType playermask)).length =
      (messageHeader buf.length demType playermask).length + 2 := length_encode_messageHeader true _ _ _
  have hheadne := messageHeader_ne_nil buf.length demType playermask
  have hencoding : (Op.message true buf demType playermask).encoding =
      encode true (messageHeader buf.length demType playermask) ++ encode true buf := rfl
  have hexec : ∀ sock, (makeRoom sock (buf.length + (messageHeader buf.length demType playermask).length) prox).HasRoom
      (buf.length + (messageHeader buf.length demType playermask).length) →
      exec sock prox (.message true buf demType playermask) =
        netProxySend sock true buf (netProxySend sock true (messageHeader buf.length demType playermask)
          (makeRoom sock (buf.length + (messageHeader buf.length demType playermask).length) prox)) :=
    fun _ hhas => if_pos hhas
  have hread : (Op.message true buf demType playermask).Decodes →
      readFrames (frame (messageHeader buf.length demType playermask) ++ frame buf) =
        some (messageHeader buf.length demType playermask ++ buf) := fun hdecodes => hdecodes rfl
  generalize messageHeader buf.length demType playermask = head at *
  have hne : buf ≠ [] := by
    rintro rfl
    exact hcond ⟨by rw [length_nil]; omega, .inl rfl⟩
  have hbuf := length_pos_iff.mpr (encode_ne_nil true hne)
  obtain ⟨sock, hhas, hq, hfits, hjust⟩ := exists_makeRoom h href
  have hroom := makeRoom_spec sock h (buf.length + head.length)
  have hroom' := hroom.valid.hasRoom_iff.mp hhas
  have hvalid := (netProxySend_spec sock hroom.valid true head).valid
  obtain ⟨xs, hxs, hstream, hused, hq'⟩ := netProxySend_quiet hroom.valid hq true hheadne
  obtain ⟨ys, hys, hstream', -, -⟩ := netProxySend_quiet hvalid hq' true hne
  have hboth : (exec sock prox (.message true buf demType playermask)).stream = prox.stream ++ (xs ++ ys) := by
    rw [hexec sock hhas, hstream', hstream, hroom.stream, append_assoc]
  rw [hused, show roomFor true buf = buf.length + 4 from rfl] at hys
  refine ⟨sock, ?_⟩
  rintro (hnone | ⟨hall, hdecodes⟩)
  · -- without the header there is room for the body
    rw [hboth] at hnone
    obtain ⟨rfl, rfl⟩ := append_eq_nil_iff.mp (append_right_eq_self.mp hnone)
    rcases hys with ⟨hys, -⟩ | ⟨-, hys⟩
    · rw [← hys] at hbuf
      exact absurd hbuf (lt_irrefl 0)
    · rw [length_nil] at hys
      omega
  · rw [hboth, hencoding] at hall
    have hsum := congrArg List.length (append_cancel_left hall)
    rw [length_append, length_append] at hsum
    rcases hxs with ⟨rfl, -⟩ | ⟨rfl, -⟩
    · rcases hys with ⟨rfl, hroombody⟩ | ⟨rfl, -⟩
      · -- with both there the body is longer than its frame says
        have hlong : 65536 ≤ buf.length := by
          by_contra hshort
          refine hcond ⟨by omega, .inr ?_⟩
          by_cases hle : prox.used + (buf.length + head.length) ≤ maxProxyBuffer
          · have := hfits hle
            omega
          · have := hjust (by omega)
            omega
        have hframes := hread hdecodes
        rw [readFrames_frame (by omega), Option.map_eq_some_iff] at hframes
        obtain ⟨more, hmore, heq⟩ := hframes
        rw [append_cancel_left heq] at hmore
        exact readFrames_frame_ne hlong (by unfold maxProxyBuffer at hroombody; omega) hmore
      · rw [length_nil] at hsum
        omega
    · rcases hys with ⟨rfl, -⟩ | ⟨rfl, -⟩ <;> simp only [length_nil] at hsum <;> omega

/-- A call that is not framed is not whole for some socket. -/
theorem exists_not_whole (h : prox.Valid) {op : Op} (hop : ¬ Framed prox op) : ∃ sock, ¬ Whole sock prox op := by
  cases op with
  | flush => exact absurd trivial hop
  | send websocket buffer =>
    obtain ⟨hws, hlong, href⟩ : websocket = true ∧ 65536 ≤ buffer.length ∧ ¬ Refused prox (buffer.length + 4) := by
      simpa only [Framed, not_or, Bool.not_eq_false, not_lt] using hop
    subst hws
    obtain ⟨sock, hhas, -⟩ := exists_makeRoom h href
    have hfits := (makeRoom_spec sock h _).valid.hasRoom_iff.mp hhas
    have hsent := netProxySend_spec sock h true buffer
    have hhas' : (makeRoom sock (roomFor true buffer) prox).HasRoom (roomFor true buffer) := hhas
    rw [if_pos hhas'] at hsent
    have hne : buffer ≠ [] := ne_nil_of_length_pos (by omega)
    refine ⟨sock, ?_⟩
    rintro (hnone | ⟨-, hdecodes⟩)
    · exact encode_ne_nil true hne (append_right_eq_self.mp (hsent.stream.symm.trans hnone))
    · exact readFrames_frame_ne hlong (by unfold maxProxyBuffer at hfits; omega) (hdecodes rfl)
  | message websocket buf demType playermask =>
    obtain ⟨hws, href, hcond⟩ : websocket = true ∧
        ¬ Refused prox (buf.length + (messageHeader buf.length demType playermask).length) ∧
        ¬ (buf.length < 65536 ∧ (buf = [] ∨ prox.used +
          ((messageHeader buf.length demType playermask).length + 2 + (buf.length + 4)) ≤ maxProxyBuffer)) := by
      simpa only [Framed, not_or, Bool.not_eq_false] using hop
    subst hws
    exact exists_not_whole_message h href hcond

/-- From a state a call is whole whatever the socket does if it is framed, and only then. -/
theorem framed_iff (h : prox.Valid) (op : Op) : Framed prox op ↔ ∀ sock, Whole sock prox op := by
  refine ⟨fun hop sock => whole_of_framed sock h hop, fun hwhole => ?_⟩
  by_contra hop
  obtain ⟨sock, hnot⟩ := exists_not_whole h hop
  exact hnot (hwhole sock)

/-! ## Runs -/

theorem start_valid (junk : Mem Byte) : (start junk).Valid := ⟨le_rfl, zero_le _⟩

/-- Every state of a run has its positions in order. -/
theorem run_valid (h : prox.Valid) (ops : List Op) : (run sock prox ops).Valid := by
  induction ops generalizing prox with
  | nil => exact h
  | cons op ops ih => exact ih (exec_valid sock h op)

/-- What a run is to leave: the bytes for the peer are those of some of the calls, in order. -/
structure Delivers (sock : ℕ → SendResult) (prox : Proxy) (ops : List Op) : Prop where
  valid : (run sock prox ops).Valid
  whole : ∀ before op after, ops = before ++ op :: after → Whole sock (run sock prox before) op
  accepted : ∃ calls : List Op, calls.Sublist ops ∧ (∀ op ∈ calls, op.Decodes) ∧
    (run sock prox ops).written <+: prox.stream ++ calls.flatMap Op.encoding ∧
    (run sock prox ops).stream = prox.stream ++ calls.flatMap Op.encoding

theorem run_delivers (h : prox.Valid) {ops : List Op} (hops : FramedRun sock prox ops) : Delivers sock prox ops := by
  refine ⟨run_valid h ops, ?_, ?_⟩
  · intro before op after hsplit
    induction before generalizing prox ops with
    | nil =>
      subst hsplit
      exact whole_of_framed sock h hops.1
    | cons first before ih =>
      subst hsplit
      exact ih (exec_valid sock h first) hops.2 rfl
  · suffices hall : ∃ calls : List Op, calls.Sublist ops ∧ (∀ op ∈ calls, op.Decodes) ∧
        (run sock prox ops).stream = prox.stream ++ calls.flatMap Op.encoding by
      obtain ⟨calls, hsub, hdecodes, hstream⟩ := hall
      exact ⟨calls, hsub, hdecodes, ⟨_, hstream⟩, hstream⟩
    induction ops generalizing prox with
    | nil => exact ⟨[], .refl _, by simp, by simp [run]⟩
    | cons op ops ih =>
      obtain ⟨calls, hsub, hdecodes, hstream⟩ := ih (exec_valid sock h op) hops.2
      rcases whole_of_framed sock h hops.1 with hnone | ⟨hall, hop⟩
      · exact ⟨calls, hsub.cons op, hdecodes, by rw [← hnone]; exact hstream⟩
      · refine ⟨op :: calls, hsub.cons_cons op, forall_mem_cons.mpr ⟨hop, hdecodes⟩, ?_⟩
        rw [flatMap_cons, ← append_assoc, ← hall]
        exact hstream

/-- The positions of a proxy are always in order. In a run of framed calls nothing is lost and nothing comes in halves; and a
call has to be framed to be whole whatever the socket does. -/
theorem delivers_of_framed (junk : Mem Byte) :
    (∀ sock ops, (run sock (start junk) ops).Valid) ∧
      (∀ sock ops, FramedRun sock (start junk) ops → Delivers sock (start junk) ops) ∧
      ∀ sock ops op, Framed (run sock (start junk) ops) op ↔ ∀ sock', Whole sock' (run sock (start junk) ops) op :=
  ⟨fun _ ops => run_valid (start_valid junk) ops, fun _ _ hops => run_delivers (start_valid junk) hops,
    fun _ ops op => framed_iff (run_valid (start_valid junk) ops) op⟩

theorem delivers_message : Delivers (fun _ => .sent 100) (start fun _ => 0) [.message true [7] 1 0] := by
  refine (delivers_of_framed fun _ => 0).2.1 _ _ ⟨.inr (.inr ⟨?_, .inr ?_⟩), trivial⟩
  · rw [List.length_singleton]
    omega
  · rw [length_messageHeader]
    decide

/-- With ten bytes left a message over a websocket comes in halves: its header is put into the ring, its body is not. -/
theorem not_delivers_of_length {fill : List Byte} (hfill : fill.length = maxProxyBuffer - 10) :
    ¬ Delivers (fun _ => .again) (start fun _ => 0) [.send false fill, .message true [7] 1 0] := by
  intro h
  have hten : 10 < maxProxyBuffer := by
    unfold maxProxyBuffer
    omega
  obtain ⟨filling, hfilling, -, hused, hquiet⟩ := netProxySend_quiet (start_valid fun _ => 0)
    (show Quiet (fun _ => .again) _ from fun _ _ => rfl) false (ne_nil_of_length_pos (by omega : 0 < fill.length))
  have hvalid : (netProxySend (fun _ => .again) false fill (start fun _ => 0)).Valid :=
    (netProxySend_spec _ (start_valid _) false _).valid
  have hwhole : Whole (fun _ => .again) (netProxySend (fun _ => .again) false fill (start fun _ => 0))
      (.message true [7] 1 0) := h.whole [.send false fill] _ [] rfl
  generalize netProxySend (fun _ => .again) false fill (start fun _ => 0) = prox at hused hquiet hvalid hwhole
  have hfull : prox.used = maxProxyBuffer - 10 := by
    have hstart : (start fun _ => 0).used = 0 := rfl
    have hroom : roomFor false fill = maxProxyBuffer - 10 := hfill
    rcases hfilling with ⟨rfl, -⟩ | ⟨-, hlt⟩
    · rw [hused, hstart, zero_add]
      exact hfill
    · rw [hstart, hroom] at hlt
      omega
  have hhead : messageHeader 1 1 0 ≠ [] := messageHeader_ne_nil _ _ _
  have hlen : (encode true (messageHeader 1 1 0)).length = 8 := by
    rw [length_encode_messageHeader, length_messageHeader]; decide
  have hhas : prox.HasRoom (1 + (messageHeader 1 1 0).length) := by
    rw [hvalid.hasRoom_iff, hfull, length_messageHeader, if_neg (by decide)]
    omega
  have hexec : exec (fun _ => .again) prox (.message true [7] 1 0) =
      netProxySend (fun _ => .again) true [7] (netProxySend (fun _ => .again) true (messageHeader 1 1 0) prox) := by
    have hroom : makeRoom (fun _ => .again) (1 + (messageHeader 1 1 0).length) prox = prox := if_pos hhas
    change (if (makeRoom (fun _ => .again) (1 + (messageHeader 1 1 0).length) prox).HasRoom
      (1 + (messageHeader 1 1 0).length) then _ else _) = _
    rw [if_pos (hroom.symm ▸ hhas)]
    exact congrArg (fun p => netProxySend _ true [7] (netProxySend _ true (messageHeader 1 1 0) p)) hroom
  obtain ⟨xs, hxs, hstream, hused', hquiet'⟩ := netProxySend_quiet hvalid hquiet true hhead
  obtain ⟨ys, hys, hstream', -, -⟩ := netProxySend_quiet (netProxySend_spec _ hvalid true _).valid hquiet' true
    (show ([7] : List Byte) ≠ [] from cons_ne_nil _ _)
  have hneed : roomFor true (messageHeader 1 1 0) = 10 := by rw [roomFor, if_pos rfl, length_messageHeader]; rfl
  rw [hneed, hfull] at hxs
  obtain ⟨rfl, -⟩ : xs = encode true (messageHeader 1 1 0) ∧ _ := hxs.resolve_right fun hno => absurd hno.2 (by omega)
  have hneed' : roomFor true ([7] : List Byte) = 5 := rfl
  rw [hused', hlen, hfull, hneed'] at hys
  obtain ⟨rfl, -⟩ : ys = [] ∧ _ := hys.resolve_left fun hno => absurd hno.2 (by omega)
  have hboth := hexec ▸ hstream'.trans (by rw [hstream, append_nil])
  rcases hwhole with hnone | ⟨hall, -⟩
  · have := congrArg List.length (append_right_eq_self.mp (hboth.symm.trans hnone))
    rw [hlen] at this
    cases this
  · have := congrArg List.length (append_cancel_left (hboth.symm.trans hall))
    rw [Op.encoding, length_append] at this
    exact absurd this (by decide)

theorem not_delivers_half : ¬ Delivers (fun _ => .again) (start fun _ => 0)
    [.send false (List.replicate (maxProxyBuffer - 10) 0), .message true [7] 1 0] :=
  not_delivers_of_length List.length_replicate

end ProxyBuffer

end FteQuake
