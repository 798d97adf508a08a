import FteQuake.Net.TcpStream

/-!
# Packets out of a stream

`FTENET_TCP_ReadStream` of `net_wins.c`, for a peer whose handshake is over: what `VFS_READ` gives is
put behind `inbuffer`, and whole frames are taken from its front. The sizes of the reads, the results
of the writes and the answer of the ICE library to a session description are parameters. What the
broker does with a message between two WebRTC peers is left out.

`readStream_frames` says which packets come out of a stream of frames however it is cut, and what a
call touches on any stream.
-/

namespace FteQuake

open List Nat
open TcpStream (connected payload utf8 utf8Text)

namespace TcpReceive

open TcpStream (NetErr WsPacketType qizmoFrame)

/-- The values of `clienttype` behind a handshake. -/
inductive RecvType
  | qizmo
  | websocketU
  | websocketB
  | websocketNQ
  | webrtcHost
  | webrtcClient
  deriving DecidableEq, Repr

/-- `ftenet_tcp_stream_t`: `inbuffer` up to `inlen`, the outgoing part, and whether `resource` is a
name. Beside it, the packets passed to `ReadGamePacket`, the bytes that `clientstream` still holds and
the results of its next reads and writes. -/
structure Conn where
  clienttype : RecvType
  inbuffer : List QByte
  out : TcpStream.Stream
  resource : Bool
  fakesequence : BitVec 32
  delivered : List (List QByte)
  pending : List QByte
  reads : List ℤ
  writes : List ℤ

/-- What `ICE_Get` gives after a session description; it has room for `net_message_buffer`. -/
structure Ice where
  answer : List QByte → Option (List QByte)
  length_lt : ∀ {sdp text}, answer sdp = some text → text.length < TcpStream.maxOverallmsglen

/-- One pass of the loop: a read or write outside of the bytes in `inbuffer` or of
`net_message_buffer`, a return, the next pass, or a packet and `goto restart`. -/
inductive Step
  | fault
  | ret (err : Option String) (c : Conn)
  | again (c : Conn)
  | packet (msg : List QByte) (c : Conn)

/-- A number of bytes, high byte first. -/
def ofBE (b : List QByte) : ℕ := b.foldl (fun n x => n * 256 + x.toNat) 0

/-- `BigLong`, into memory. -/
def bigLong (x : BitVec 32) : List QByte :=
  [(x >>> 24).setWidth 8, (x >>> 16).setWidth 8, (x >>> 8).setWidth 8, x.setWidth 8]

/-- The bytes of a text frame, into room for so many. -/
def textDecode : ℕ → List QByte → List QByte
  | 0, _ => []
  | _ + 1, [] => []
  | _ + 1, [a] => [if a &&& 0x80 ≠ 0 then 0x3f else a]
  | room + 1, a :: b :: rest =>
    if a &&& 0xe0 = 0xc0 then (((a &&& 0x1f) <<< 6) ||| (b &&& 0x3f)) :: textDecode room rest
    else (if a &&& 0x80 ≠ 0 then 0x3f else a) :: textDecode room (b :: rest)

/-- Bytes under a mask. -/
def unmask (mask : List QByte) (body : List QByte) : List QByte :=
  body.mapIdx fun i x => x ^^^ mask.getD (i % 4) 0

namespace Conn

variable (c : Conn)

/-- `VFS_READ` behind the bytes in `inbuffer`; `none` where the connection is lost. -/
def vfsRead : Option Conn :=
  if c.inbuffer.length < TcpStream.maxOverallmsglen - 1 then
    let ret := c.reads.headD 0
    if ret < 0 then none
    else
      let n := min ret.toNat (TcpStream.maxOverallmsglen - 1 - c.inbuffer.length)
      some { c with
        inbuffer := c.inbuffer ++ c.pending.take n
        pending := c.pending.drop n
        reads := c.reads.tail }
  else some c

/-- `n` bytes of `inbuffer` from `ofs` on. -/
def fetch (ofs n : ℕ) (k : List QByte → Step) : Step :=
  if ofs + n ≤ c.inbuffer.length then k ((c.inbuffer.drop ofs).take n) else .fault

/-- The end of a pass: what it put into `net_message_buffer`, and the move of what is behind the frame
to the start of `inbuffer`. -/
def finish (size : ℕ) (msg : List QByte) : Step :=
  if TcpStream.maxOverallmsglen < msg.length then .fault
  else if msg = [] then .again { c with inbuffer := c.inbuffer.drop size }
  else .packet msg { c with inbuffer := c.inbuffer.drop size }

/-- The `TCPC_QIZMO` case. The length is a `short` and is compared with a `size_t`. -/
def stepQizmo : Step :=
  if c.inbuffer.length < 2 then .ret none c
  else
    c.fetch 0 2 fun b =>
      let cursize := (BitVec.ofNat 16 (ofBE b)).toInt
      if cursize < 0 ∨ (TcpStream.maxOverallmsglen : ℤ) ≤ cursize then .ret (some "oversize") c
      else if (c.inbuffer.length : ℤ) < cursize + 2 then .ret none c
      else
        c.fetch 2 cursize.toNat fun data =>
          .packet data { c with inbuffer := c.inbuffer.drop (cursize.toNat + 2) }

/-- `paylen` and `payoffs` behind the length of a frame. -/
def wsLength (ctrl : BitVec 16) (k : ℕ → ℕ → Step) : Step :=
  if ctrl &&& 0x7f = 127 then
    if c.inbuffer.length < 2 + 8 then .ret none c
    else
      c.fetch 2 8 fun b =>
        if ofBE b < 0x10000 then .ret (some "corrupt") c
        else if 0x40000 < ofBE b then .ret (some "oversize") c
        else k (ofBE b) (2 + 8)
  else if ctrl &&& 0x7f = 126 then
    if c.inbuffer.length < 2 + 2 then .ret none c
    else
      c.fetch 2 2 fun b =>
        if ofBE b < 126 then .ret (some "corrupt") c else k (ofBE b) (2 + 2)
  else k (ctrl &&& 0x7f).toNat 2

/-- `mask`, and `payoffs` behind it. -/
def wsMask (ctrl : BitVec 16) (payoffs : ℕ) (k : List QByte → ℕ → Step) : Step :=
  if ctrl &&& 0x80 ≠ 0 then
    if c.inbuffer.length < payoffs + 4 then .ret none c
    else c.fetch payoffs 4 fun m => k m (payoffs + 4)
  else k [0, 0, 0, 0] payoffs

/-- The payload is unmasked where it is. -/
def unmaskAt (mask : List QByte) (payoffs paylen : ℕ) : Conn :=
  if mask = [0, 0, 0, 0] then c
  else
    { c with
      inbuffer := c.inbuffer.take payoffs ++ unmask mask ((c.inbuffer.drop payoffs).take paylen) ++
        c.inbuffer.drop (payoffs + paylen) }

/-- `SVM_AddBrokerGame` on the text of an `ICEMSG_SERVERINFO`, in a build with `SV_MASTER`. The text is
ended by a null byte behind the payload for as long. -/
def serverinfo (payoffs paylen : ℕ) : Step :=
  c.fetch (payoffs + paylen) 1 fun _ =>
    if 0 ∈ (c.inbuffer.set (payoffs + paylen) 0).drop (payoffs + 3) then c.finish (payoffs + paylen) []
    else .fault

/-- The payload of a `TCPC_WEBSOCKETNQ` frame, behind a header for NetQuake. -/
def nqHeader (payoffs paylen : ℕ) : Step :=
  c.fetch payoffs 1 fun type =>
    c.fetch (payoffs + 1) (paylen - 1) fun data =>
      let cursize := data.length + 4
      let size := BitVec.ofNat 32 cursize
      match type with
      | [0] =>
        let c := { c with fakesequence := c.fakesequence + 1 }
        c.finish (payoffs + paylen)
          ((bigLong (0x00100000 ||| size) ++ bigLong c.fakesequence ++ data.drop 4).take cursize)
      | [1] =>
        c.finish (payoffs + paylen) (bigLong (0x00010000 ||| 0x00080000 ||| size) ++ data)
      | [2] => c.finish (payoffs + paylen) (bigLong (0x00020000 ||| size) ++ data)
      | _ => .ret (some "TCPC_WEBSOCKETNQ: unknown packet type") c

/-- A binary frame that is not for us, or is a packet. -/
def relayOrPacket (payoffs paylen : ℕ) : Step :=
  if (c.clienttype = .webrtcClient ∨ c.clienttype = .webrtcHost) ∧ 3 ≤ paylen then
    c.fetch payoffs paylen fun _ => c.finish (payoffs + paylen) []
  else if c.clienttype = .websocketNQ ∧ 1 ≤ paylen then c.nqHeader payoffs paylen
  else c.fetch payoffs paylen fun data => c.finish (payoffs + paylen) data

variable (ice : Ice)

/-- A client that is connected directly, by WebRTC. -/
def directClient (payoffs paylen : ℕ) : Step :=
  c.fetch payoffs paylen fun sdp =>
    match ice.answer sdp with
    | none => c.finish (payoffs + paylen) []
    | some text =>
      match c.out.splurge .binaryframe text (c.writes.headD 0) with
      | none => .fault
      | some (_, out) => { c with out := out, writes := c.writes.tail }.finish (payoffs + paylen) []

/-- `WS_PACKETTYPE_BINARYFRAME`. -/
def binaryFrame (payoffs paylen : ℕ) : Step :=
  if TcpStream.maxOverallmsglen ≤ paylen + 8 then .ret (some "oversize") c
  else if c.clienttype = .webrtcClient ∧ c.resource = false then c.directClient ice payoffs paylen
  else if c.clienttype = .webrtcHost then
    c.fetch payoffs 1 fun type =>
      if type = [6] then c.serverinfo payoffs paylen else c.relayOrPacket payoffs paylen
  else c.relayOrPacket payoffs paylen

/-- `WS_PACKETTYPE_PING`. -/
def pingFrame (payoffs paylen : ℕ) : Step :=
  c.fetch payoffs paylen fun data =>
    match c.out.splurge .pong data (c.writes.headD 0) with
    | none => .fault
    | some (.sent, out) =>
      { c with out := out, writes := c.writes.tail }.finish (payoffs + paylen) []
    | some (_, out) => .ret (some "write error") { c with out := out }

/-- The switch over the packet types. -/
def wsFrame (ctrl : BitVec 16) (payoffs paylen : ℕ) : Step :=
  match ((ctrl >>> 8) &&& 0xf).toNat with
  | 1 => c.fetch payoffs paylen fun data =>
      c.finish (payoffs + paylen) (textDecode TcpStream.maxOverallmsglen data)
  | 2 => c.binaryFrame ice payoffs paylen
  | 8 => .ret (some "drop") c
  | 9 => c.pingFrame payoffs paylen
  | 10 => c.finish (payoffs + paylen) []
  | _ => .ret (some "unsupported") c

/-- The websocket cases. -/
def stepWs : Step :=
  if c.inbuffer.length < 2 then .ret none c
  else
    c.fetch 0 2 fun b =>
      let ctrl := BitVec.ofNat 16 (ofBE b)
      if ctrl &&& 0x7000 ≠ 0 then .ret (some "reserved") c
      else
        c.wsLength ctrl fun paylen payoffs =>
          c.wsMask ctrl payoffs fun mask payoffs =>
            if c.inbuffer.length < payoffs + paylen then
              if TcpStream.maxOverallmsglen - 1 ≤ payoffs + paylen then .ret (some "oversize") c
              else .ret none c
            else (c.unmaskAt mask payoffs paylen).wsFrame ice ctrl payoffs paylen

/-- One pass. -/
def step : Step := if c.clienttype = .qizmo then c.stepQizmo else c.stepWs ice

end Conn

/-- What comes of a call. -/
inductive Outcome
  | fault
  | outOfFuel
  | returned (err : Option String) (c : Conn)

/-- The loop from `restart`, or from within, with so many passes. -/
def run (ice : Ice) : ℕ → Bool → Conn → Outcome
  | 0, _, _ => .outOfFuel
  | fuel + 1, restart, c =>
    match if restart then c.vfsRead else some c with
    | none => .returned (some "connection lost") { c with out := { c.out with outbuffer := [] } }
    | some c =>
      match c.step ice with
      | .fault => .fault
      | .ret err c => .returned err c
      | .again c => run ice fuel false c
      | .packet msg c => run ice fuel true { c with delivered := c.delivered ++ [msg] }

/-- `FTENET_TCP_ReadStream`, with a pass for every byte there is. -/
def readStream (ice : Ice) (c : Conn) : Outcome :=
  run ice (c.inbuffer.length + c.pending.length + 1) true c

/-! ## What a pass touches -/

namespace Conn

/-- The parts of a connection that a pass leaves alone, and the room in `outbuffer`. -/
structure Keeps (c c' : Conn) : Prop where
  clienttype : c'.clienttype = c.clienttype
  pending : c'.pending = c.pending
  reads : c'.reads = c.reads
  delivered : c'.delivered = c.delivered
  outlen : c'.out.outbuffer.length ≤ TcpStream.maxOverallmsglen

/-- A pass stays inside of the buffers and ends with no more bytes than there were; it takes at least
two of them where it does not return. -/
def Safe (c : Conn) : Step → Prop
  | .fault => False
  | .ret _ c' => c.Keeps c' ∧ c'.inbuffer.length ≤ c.inbuffer.length
  | .again c' => c.Keeps c' ∧ c'.inbuffer.length + 2 ≤ c.inbuffer.length
  | .packet _ c' => c.Keeps c' ∧ c'.inbuffer.length + 2 ≤ c.inbuffer.length

/-- What a pass starts from. -/
structure Fits (c : Conn) : Prop where
  inlen : c.inbuffer.length < TcpStream.maxOverallmsglen
  outlen : c.out.outbuffer.length ≤ TcpStream.maxOverallmsglen

variable {c : Conn} {ice : Ice}

theorem Keeps.rfl (h : c.Fits) : c.Keeps c := ⟨Eq.refl _, Eq.refl _, Eq.refl _, Eq.refl _, h.outlen⟩

theorem Fits.ret (h : c.Fits) (err : Option String) : c.Safe (.ret err c) := ⟨.rfl h, le_rfl⟩

theorem Safe.of_keeps {c' : Conn} {s : Step} (hkeeps : c.Keeps c')
    (hlen : c'.inbuffer.length = c.inbuffer.length) (h : c'.Safe s) : c.Safe s := by
  have htrans : ∀ d, c'.Keeps d → c.Keeps d := fun d hd =>
    ⟨hd.clienttype.trans hkeeps.clienttype, hd.pending.trans hkeeps.pending,
      hd.reads.trans hkeeps.reads, hd.delivered.trans hkeeps.delivered, hd.outlen⟩
  cases s with
  | fault => exact h
  | ret err d => exact ⟨htrans d h.1, hlen ▸ h.2⟩
  | again d => exact ⟨htrans d h.1, hlen ▸ h.2⟩
  | packet msg d => exact ⟨htrans d h.1, hlen ▸ h.2⟩

theorem fetch_of_le {ofs n : ℕ} (h : ofs + n ≤ c.inbuffer.length) (k : List QByte → Step) :
    c.fetch ofs n k = k ((c.inbuffer.drop ofs).take n) := if_pos h

theorem length_fetched {ofs n : ℕ} (h : ofs + n ≤ c.inbuffer.length) :
    ((c.inbuffer.drop ofs).take n).length = n := by
  rw [length_take, length_drop]
  omega

theorem finish_safe (hfits : c.Fits) {size : ℕ} {msg : List QByte} (htwo : 2 ≤ size)
    (hsize : size ≤ c.inbuffer.length) (hmsg : msg.length ≤ TcpStream.maxOverallmsglen) :
    c.Safe (c.finish size msg) := by
  rw [finish, if_neg (not_lt.mpr hmsg)]
  have hkeeps : c.Keeps { c with inbuffer := c.inbuffer.drop size } :=
    ⟨rfl, rfl, rfl, rfl, hfits.outlen⟩
  have hlen : (c.inbuffer.drop size).length + 2 ≤ c.inbuffer.length := by
    rw [length_drop]
    omega
  split_ifs
  · exact ⟨hkeeps, hlen⟩
  · exact ⟨hkeeps, hlen⟩

/-- A frame of our own finds room, or is refused. -/
theorem splurge_safe (hfits : c.Fits) (packettype : WsPacketType) (htype : packettype ≠ .textframe)
    {data : List QByte} (hdata : data.length ≤ TcpStream.maxOverallmsglen) (done : ℤ) :
    ∃ e out, c.out.splurge packettype data done = some (e, out) ∧
      out.outbuffer.length ≤ TcpStream.maxOverallmsglen := by
  have hbody : payload packettype data = data := by
    cases packettype <;> first | rfl | contradiction
  have hout := hfits.outlen
  have hframes : c.out.Frames (TcpStream.wsFrame packettype data) (c.out.splurge packettype data done) := by
    refine TcpStream.Stream.splurge_frames done hout ?_ ?_
    · rw [hbody]
      exact hdata.trans_lt (by decide)
    · rw [hbody, TcpStream.Stream.Wraps]
      simp only [TcpStream.maxOverallmsglen] at *
      omega
  obtain ⟨e, out, hrun, hadds⟩ := hframes
  exact ⟨e, out, hrun, hadds.fits⟩

variable {paylen payoffs : ℕ}

theorem nqHeader_safe (hfits : c.Fits) (htwo : 2 ≤ payoffs) (hpos : 1 ≤ paylen)
    (hsize : payoffs + paylen ≤ c.inbuffer.length) (hlong : paylen + 8 < TcpStream.maxOverallmsglen) :
    c.Safe (c.nqHeader payoffs paylen) := by
  rw [nqHeader, fetch_of_le (by omega), fetch_of_le (by omega)]
  have hdata := length_fetched (c := c) (show payoffs + 1 + (paylen - 1) ≤ c.inbuffer.length by omega)
  set data := (c.inbuffer.drop (payoffs + 1)).take (paylen - 1)
  dsimp only
  split
  · refine Safe.of_keeps ?_ ?_ (finish_safe ?_ (by omega) hsize ?_)
    · exact ⟨rfl, rfl, rfl, rfl, hfits.outlen⟩
    · rfl
    · exact ⟨hfits.inlen, hfits.outlen⟩
    · rw [length_take]
      omega
  · refine finish_safe hfits (by omega) hsize ?_
    simp only [bigLong, length_append, length_cons, length_nil]
    omega
  · refine finish_safe hfits (by omega) hsize ?_
    simp only [bigLong, length_append, length_cons, length_nil]
    omega
  · exact hfits.ret _

theorem relayOrPacket_safe (hfits : c.Fits) (htwo : 2 ≤ payoffs)
    (hsize : payoffs + paylen ≤ c.inbuffer.length) (hlong : paylen + 8 < TcpStream.maxOverallmsglen) :
    c.Safe (c.relayOrPacket payoffs paylen) := by
  rw [relayOrPacket]
  split_ifs with hbroker hnq
  · rw [fetch_of_le hsize]
    exact finish_safe hfits (by omega) hsize (zero_le _)
  · exact nqHeader_safe hfits htwo hnq.2 hsize hlong
  · rw [fetch_of_le hsize]
    refine finish_safe hfits (by omega) hsize ?_
    rw [length_fetched hsize]
    omega

theorem directClient_safe (hfits : c.Fits) (htwo : 2 ≤ payoffs)
    (hsize : payoffs + paylen ≤ c.inbuffer.length) : c.Safe (c.directClient ice payoffs paylen) := by
  rw [directClient, fetch_of_le hsize]
  cases hanswer : ice.answer ((c.inbuffer.drop payoffs).take paylen) with
  | none => exact finish_safe hfits (by omega) hsize (zero_le _)
  | some text =>
    obtain ⟨e, out, hrun, hout⟩ := splurge_safe hfits .binaryframe (by decide)
      (ice.length_lt hanswer).le (c.writes.headD 0)
    dsimp only
    rw [hrun]
    refine Safe.of_keeps ?_ ?_ (finish_safe ?_ (by omega) hsize (zero_le _))
    · exact ⟨rfl, rfl, rfl, rfl, hout⟩
    · rfl
    · exact ⟨hfits.inlen, hout⟩

theorem binaryFrame_safe (hfits : c.Fits) (htype : c.clienttype ≠ .webrtcHost)
    (htwo : 2 ≤ payoffs) (hsize : payoffs + paylen ≤ c.inbuffer.length) :
    c.Safe (c.binaryFrame ice payoffs paylen) := by
  rw [binaryFrame]
  split_ifs with hlong hdirect
  · exact hfits.ret _
  · exact directClient_safe hfits htwo hsize
  · exact relayOrPacket_safe hfits htwo hsize (not_le.mp hlong)

theorem pingFrame_safe (hfits : c.Fits) (htwo : 2 ≤ payoffs)
    (hsize : payoffs + paylen ≤ c.inbuffer.length) : c.Safe (c.pingFrame payoffs paylen) := by
  rw [pingFrame, fetch_of_le hsize]
  have hinlen := hfits.inlen
  have hdata : ((c.inbuffer.drop payoffs).take paylen).length ≤ TcpStream.maxOverallmsglen := by
    rw [length_fetched hsize]
    omega
  obtain ⟨e, out, hrun, hout⟩ := splurge_safe hfits .pong (by decide) hdata (c.writes.headD 0)
  rw [hrun]
  cases e with
  | sent =>
    refine Safe.of_keeps ?_ ?_ (finish_safe ?_ (by omega) hsize (zero_le _))
    · exact ⟨rfl, rfl, rfl, rfl, hout⟩
    · rfl
    · exact ⟨hfits.inlen, hout⟩
  | mtu => exact ⟨⟨rfl, rfl, rfl, rfl, hout⟩, le_rfl⟩
  | clogged => exact ⟨⟨rfl, rfl, rfl, rfl, hout⟩, le_rfl⟩

theorem textDecode_length_le (room : ℕ) (data : List QByte) :
    (textDecode room data).length ≤ room := by
  induction room, data using textDecode.induct with
  | case1 => simp [textDecode]
  | case2 => simp [textDecode]
  | case3 => simp [textDecode]
  | case4 room a b rest h ih =>
    rw [textDecode, if_pos h, length_cons]
    omega
  | case5 room a b rest h ih =>
    rw [textDecode, if_neg h, length_cons]
    omega

theorem wsFrame_safe (hfits : c.Fits) (htype : c.clienttype ≠ .webrtcHost) (ctrl : BitVec 16)
    (htwo : 2 ≤ payoffs) (hsize : payoffs + paylen ≤ c.inbuffer.length) :
    c.Safe (c.wsFrame ice ctrl payoffs paylen) := by
  rw [wsFrame]
  split
  · rw [fetch_of_le hsize]
    exact finish_safe hfits (by omega) hsize (textDecode_length_le ..)
  · exact binaryFrame_safe hfits htype htwo hsize
  · exact hfits.ret _
  · exact pingFrame_safe hfits htwo hsize
  · exact finish_safe hfits (by omega) hsize (zero_le _)
  · exact hfits.ret _

theorem unmaskAt_inlen (mask : List QByte) (hsize : payoffs + paylen ≤ c.inbuffer.length) :
    (c.unmaskAt mask payoffs paylen).inbuffer.length = c.inbuffer.length := by
  rw [unmaskAt]
  split_ifs
  · rfl
  · simp only [unmask, length_append, length_take, length_mapIdx, length_drop]
    omega

theorem unmaskAt_keeps (hfits : c.Fits) (mask : List QByte) (payoffs paylen : ℕ) :
    c.Keeps (c.unmaskAt mask payoffs paylen) := by
  rw [unmaskAt]
  split_ifs
  · exact .rfl hfits
  · exact ⟨rfl, rfl, rfl, rfl, hfits.outlen⟩

theorem wsLength_safe (hfits : c.Fits) (ctrl : BitVec 16) {k : ℕ → ℕ → Step}
    (hk : ∀ paylen payoffs, 2 ≤ payoffs → c.Safe (k paylen payoffs)) : c.Safe (c.wsLength ctrl k) := by
  rw [wsLength]
  split_ifs with h₁ h₂ h₃ h₄
  · exact hfits.ret _
  · rw [fetch_of_le (by omega)]
    split_ifs
    · exact hfits.ret _
    · exact hfits.ret _
    · exact hk _ _ (by omega)
  · exact hfits.ret _
  · rw [fetch_of_le (by omega)]
    split_ifs
    · exact hfits.ret _
    · exact hk _ _ (by omega)
  · exact hk _ _ le_rfl

theorem wsMask_safe (hfits : c.Fits) (ctrl : BitVec 16) (htwo : 2 ≤ payoffs)
    {k : List QByte → ℕ → Step} (hk : ∀ mask payoffs, 2 ≤ payoffs → c.Safe (k mask payoffs)) :
    c.Safe (c.wsMask ctrl payoffs k) := by
  rw [wsMask]
  split_ifs with h₁ h₂
  · exact hfits.ret _
  · rw [fetch_of_le (by omega)]
    exact hk _ _ (by omega)
  · exact hk _ _ htwo

theorem stepWs_safe (hfits : c.Fits) (htype : c.clienttype ≠ .webrtcHost) :
    c.Safe (c.stepWs ice) := by
  rw [stepWs]
  split_ifs with hshort
  · exact hfits.ret _
  rw [fetch_of_le (by omega)]
  dsimp only
  split_ifs with hreserved
  · exact hfits.ret _
  refine wsLength_safe hfits _ fun paylen payoffs htwo => ?_
  refine wsMask_safe hfits _ htwo fun mask payoffs htwo => ?_
  split_ifs with hmore habusive
  · exact hfits.ret _
  · exact hfits.ret _
  · have hsize : payoffs + paylen ≤ c.inbuffer.length := not_lt.mp hmore
    have hlen := unmaskAt_inlen mask hsize
    have hkeeps := unmaskAt_keeps hfits mask payoffs paylen
    exact (wsFrame_safe ⟨hlen ▸ hfits.inlen, hkeeps.outlen⟩ (hkeeps.clienttype ▸ htype) _ htwo
      (hlen ▸ hsize)).of_keeps hkeeps hlen

theorem stepQizmo_safe (hfits : c.Fits) : c.Safe c.stepQizmo := by
  rw [stepQizmo]
  split_ifs with hshort
  · exact hfits.ret _
  rw [fetch_of_le (by omega)]
  dsimp only
  split_ifs with hbig hmore
  · exact hfits.ret _
  · exact hfits.ret _
  · rw [fetch_of_le (by omega)]
    refine ⟨⟨rfl, rfl, rfl, rfl, hfits.outlen⟩, ?_⟩
    rw [length_drop]
    omega

theorem step_safe (hfits : c.Fits) (htype : c.clienttype ≠ .webrtcHost) : c.Safe (c.step ice) := by
  rw [step]
  split_ifs
  · exact stepQizmo_safe hfits
  · exact stepWs_safe hfits htype

theorem vfsRead_spec (hfits : c.Fits) {c' : Conn} (h : c.vfsRead = some c') :
    c'.Fits ∧ c'.clienttype = c.clienttype ∧ c'.delivered = c.delivered ∧ c'.reads <:+ c.reads ∧
      ∃ n ≤ c.pending.length, c'.inbuffer = c.inbuffer ++ c.pending.take n ∧
        c'.pending = c.pending.drop n := by
  rw [vfsRead] at h
  dsimp only at h
  split_ifs at h with hroom
  · obtain rfl := Option.some.inj h
    set m := min (c.reads.headD 0).toNat (TcpStream.maxOverallmsglen - 1 - c.inbuffer.length) with hm
    have hle : m ≤ TcpStream.maxOverallmsglen - 1 - c.inbuffer.length := hm ▸ min_le_right ..
    refine ⟨⟨?_, hfits.outlen⟩, rfl, rfl, tail_suffix _, min m c.pending.length, min_le_right .., ?_, ?_⟩
    · simp only [length_append, length_take, TcpStream.maxOverallmsglen] at *
      omega
    · rw [← take_eq_take_min]
    · rcases le_total m c.pending.length with hlen | hlen
      · rw [min_eq_left hlen]
      · rw [min_eq_right hlen, drop_eq_nil_of_le hlen, drop_length]
  · obtain rfl := Option.some.inj h
    exact ⟨hfits, rfl, rfl, suffix_rfl, 0, zero_le _, by simp, rfl⟩

end Conn

variable {ice : Ice}

/-- The start of a pass: what was read, or what there was. -/
def entered (restart : Bool) (c : Conn) : Option Conn := if restart then c.vfsRead else some c

variable {restart : Bool} {c c' d : Conn} {fuel : ℕ}

theorem run_ret {err : Option String} (hread : entered restart c = some d) (h : d.step ice = .ret err c') :
    run ice (fuel + 1) restart c = .returned err c' := by
  rw [entered] at hread
  rw [run, hread]
  dsimp only
  rw [h]

theorem run_again (hread : entered restart c = some d)
    (h : d.step ice = .again c') : run ice (fuel + 1) restart c = run ice fuel false c' := by
  rw [entered] at hread
  rw [run, hread]
  dsimp only
  rw [h]

theorem run_packet {msg : List QByte} (hread : entered restart c = some d) (h : d.step ice = .packet msg c') :
    run ice (fuel + 1) restart c =
      run ice fuel true { c' with delivered := c'.delivered ++ [msg] } := by
  rw [entered] at hread
  rw [run, hread]
  dsimp only
  rw [h]

theorem entered_spec (hfits : c.Fits) (h : entered restart c = some d) :
    d.Fits ∧ d.clienttype = c.clienttype ∧ d.delivered = c.delivered ∧ d.reads <:+ c.reads ∧
      ∃ n ≤ c.pending.length, d.inbuffer = c.inbuffer ++ c.pending.take n ∧
        d.pending = c.pending.drop n := by
  rw [entered] at h
  split_ifs at h
  · exact Conn.vfsRead_spec hfits h
  · obtain rfl := Option.some.inj h
    exact ⟨hfits, rfl, rfl, suffix_rfl, 0, zero_le _, by simp, rfl⟩

/-- **A call returns, and stays inside of the buffers.** What `inbuffer` holds then is no more than it
held and what was read. -/
theorem run_safe {fuel : ℕ} {restart : Bool} {c : Conn} (hfits : c.Fits)
    (htype : c.clienttype ≠ .webrtcHost) (hfuel : c.inbuffer.length + c.pending.length < fuel) :
    ∃ err c', run ice fuel restart c = .returned err c' ∧ c'.Fits ∧
      ∃ n ≤ c.pending.length, c'.pending = c.pending.drop n ∧
        c'.inbuffer.length ≤ c.inbuffer.length + n := by
  induction fuel generalizing restart c with
  | zero => omega
  | succ fuel ih =>
    cases hread : entered restart c with
    | none =>
      rw [entered] at hread
      rw [run, hread]
      exact ⟨_, _, rfl, ⟨hfits.inlen, zero_le _⟩, 0, zero_le _, rfl, le_rfl⟩
    | some d =>
      obtain ⟨hfits', htype', -, -, n, hn, hin, hpending⟩ := entered_spec hfits hread
      have hsafe : d.Safe (d.step ice) := Conn.step_safe hfits' (htype' ▸ htype)
      have hinlen : d.inbuffer.length = c.inbuffer.length + n := by
        rw [hin, length_append, length_take, min_eq_left hn]
      have hpendlen : d.pending.length = c.pending.length - n := by
        rw [hpending, length_drop]
      have hnext : ∀ c' : Conn, d.Keeps c' → c'.inbuffer.length + 2 ≤ d.inbuffer.length →
          ∀ restart delivered, ∃ err c'',
            run ice fuel restart { c' with delivered := delivered } = .returned err c'' ∧ c''.Fits ∧
            ∃ n ≤ c.pending.length, c''.pending = c.pending.drop n ∧
              c''.inbuffer.length ≤ c.inbuffer.length + n := by
        intro c' hkeeps hlen restart delivered
        have hsmall : c'.inbuffer.length + c'.pending.length < fuel := by
          rw [hkeeps.pending, hpendlen]
          omega
        have hinlen' : c'.inbuffer.length < TcpStream.maxOverallmsglen :=
          (le_of_add_right_le hlen).trans_lt hfits'.inlen
        have htype'' : c'.clienttype ≠ .webrtcHost := by
          rw [hkeeps.clienttype, htype']
          exact htype
        obtain ⟨err, c'', hrun, hfits'', m, hm, hpending', hlen'⟩ :=
          @ih restart { c' with delivered := delivered } ⟨hinlen', hkeeps.outlen⟩ htype'' hsmall
        rw [hkeeps.pending, hpendlen] at hm
        rw [hkeeps.pending, hpending, drop_drop] at hpending'
        refine ⟨err, c'', hrun, hfits'', n + m, by omega, hpending', ?_⟩
        change c''.inbuffer.length ≤ c'.inbuffer.length + m at hlen'
        omega
      cases hstep : d.step ice with
      | fault => rw [hstep] at hsafe; exact hsafe.elim
      | ret err c' =>
        rw [hstep] at hsafe
        refine ⟨err, c', run_ret hread hstep, ⟨hsafe.2.trans_lt hfits'.inlen, hsafe.1.outlen⟩, n, hn, ?_, ?_⟩
        · rw [hsafe.1.pending, hpending]
        · exact hinlen ▸ hsafe.2
      | again c' =>
        rw [hstep] at hsafe
        rw [run_again hread hstep]
        exact hnext c' hsafe.1 hsafe.2 false c'.delivered
      | packet msg c' =>
        rw [hstep] at hsafe
        rw [run_packet hread hstep]
        exact hnext c' hsafe.1 hsafe.2 true (c'.delivered ++ [msg])

/-! ## Frames on the wire -/

/-- A packet or a control frame that a peer sends, and the mask that it is sent under. -/
inductive Frame
  | qizmo (data : List QByte)
  | ws (packettype : WsPacketType) (data : List QByte) (mask : Option (Fin 4 → QByte))

/-- A websocket frame under a mask: the bit for it, the mask, and the payload masked. -/
def maskFrame : Option (Fin 4 → QByte) → List QByte → List QByte
  | none, w => w
  | some m, w =>
    let size := if w.getD 1 0 = 126 then 4 else 2
    w.take 1 ++ [w.getD 1 0 ||| 0x80] ++ (w.take size).drop 2 ++ List.ofFn m ++
      unmask (List.ofFn m) (w.drop size)

/-- What a sender that has nothing waiting leaves in `outbuffer`. -/
def sentBytes : NetErr × TcpStream.Stream → Option (List QByte)
  | (.sent, st) => some st.outbuffer
  | _ => none

namespace Frame

/-- The bytes of a frame. -/
def wire : Frame → Option (List QByte)
  | qizmo data => ((TcpStream.connected .qizmo).frameQizmo data).bind sentBytes
  | ws packettype data mask =>
    (((TcpStream.connected .websocketB).splurge packettype data 0).bind sentBytes).map (maskFrame mask)

/-- The packet in a frame. -/
def packet : Frame → Option (List QByte)
  | qizmo data => some data
  | ws packettype data _ =>
    if packettype = .textframe ∨ packettype = .binaryframe then some data else none

/-- The frames that are sent to a peer: packets that are not empty, pings and pongs. The bytes `w` of a
frame are small enough for `inbuffer`, a binary frame for `net_message_buffer`, and the length of a
qizmo packet is a positive `short`. -/
def Sendable (clienttype : RecvType) (w : List QByte) : Frame → Prop
  | qizmo data => clienttype = .qizmo ∧ data ≠ [] ∧ data.length < 2 ^ 15
  | ws packettype data _ =>
    (clienttype = .websocketU ∨ clienttype = .websocketB) ∧ w.length < TcpStream.maxOverallmsglen - 1 ∧
      ((packettype = .textframe ∧ data ≠ []) ∨
        (packettype = .binaryframe ∧ data ≠ [] ∧ data.length + 8 < TcpStream.maxOverallmsglen) ∨
        packettype = .ping ∨ packettype = .pong)

end Frame

/-- The second byte of a frame holds this of the length. -/
def shortLen (n : ℕ) : ℕ := if n < 126 then n else 126

/-- The rest of the length. -/
def longLen (n : ℕ) : List QByte :=
  if n < 126 then [] else [BitVec.ofNat 8 (n / 256), BitVec.ofNat 8 (n % 256)]

/-- The bytes of the mask. -/
def maskBytes : Option (Fin 4 → QByte) → List QByte
  | none => []
  | some m => List.ofFn m

/-- The first two bytes as a number. -/
def ctrlNum (packettype : WsPacketType) (masked : Bool) (s : ℕ) : ℕ :=
  (0x80 + packettype.code) * 256 + ((if masked then 128 else 0) + s)

/-- The payload as it is sent. -/
def maskedPayload (mask : Option (Fin 4 → QByte)) (body : List QByte) : List QByte :=
  mask.elim body fun m => unmask (List.ofFn m) body

theorem shortLen_lt (n : ℕ) : shortLen n < 128 := by
  rw [shortLen]
  split_ifs <;> omega

variable (packettype : WsPacketType)

theorem wsFrame_eq (data : List QByte) :
    TcpStream.wsFrame packettype data =
      [BitVec.ofNat 8 (0x80 + packettype.code),
        BitVec.ofNat 8 (shortLen (payload packettype data).length)] ++
      (longLen (payload packettype data).length ++ payload packettype data) := by
  simp only [TcpStream.wsFrame, shortLen, longLen]
  split_ifs <;> rfl

theorem length_longLen (n : ℕ) : (longLen n).length = if n < 126 then 0 else 2 := by
  rw [longLen]
  split_ifs <;> rfl

theorem shortLen_eq_iff (n : ℕ) : (BitVec.ofNat 8 (shortLen n) : QByte) = 126 ↔ ¬n < 126 := by
  have hlt := shortLen_lt n
  rw [← BitVec.toNat_inj, BitVec.toNat_ofNat, mod_eq_of_lt (by omega)]
  change shortLen n = 126 ↔ _
  rw [shortLen]
  split_ifs <;> omega

theorem or_0x80 : ∀ s : Fin 128, (BitVec.ofNat 8 s.1 ||| 0x80 : QByte) = BitVec.ofNat 8 (128 + s.1) := by
  decide +kernel

/-- The parts of a frame under a mask. -/
theorem maskFrame_wsFrame (mask : Option (Fin 4 → QByte)) (packettype : WsPacketType) (data : List QByte) :
    maskFrame mask (TcpStream.wsFrame packettype data) =
      [BitVec.ofNat 8 (0x80 + packettype.code),
        BitVec.ofNat 8 ((if mask.isSome then 128 else 0) +
          shortLen (payload packettype data).length)] ++
      longLen (payload packettype data).length ++ maskBytes mask ++
      maskedPayload mask (payload packettype data) := by
  rw [wsFrame_eq]
  set body := payload packettype data
  cases mask with
  | none => simp [maskFrame, maskBytes, maskedPayload]
  | some m =>
    have hor := or_0x80 ⟨shortLen body.length, shortLen_lt _⟩
    have hsize : (if (BitVec.ofNat 8 (shortLen body.length) : QByte) = 126 then 4 else 2) =
        2 + (longLen body.length).length := by
      rw [length_longLen]
      simp only [shortLen_eq_iff, ite_not]
      split_ifs <;> rfl
    simp only [maskFrame, cons_append, nil_append, getD_cons_succ, getD_cons_zero, hsize, hor, Option.isSome_some,
      if_true, maskBytes, maskedPayload, Option.elim_some, take_succ_cons, take_zero]
    rw [add_comm 2]
    simp

/-! ## A pass over a frame -/

theorem ctrl_spec (masked : Bool) (s : Fin 128) :
    BitVec.ofNat 16 (ctrlNum packettype masked s) &&& 0x7000 = 0 ∧
      (BitVec.ofNat 16 (ctrlNum packettype masked s) &&& 0x7f).toNat = s ∧
      (BitVec.ofNat 16 (ctrlNum packettype masked s) &&& 0x80 ≠ 0 ↔ masked = true) ∧
      ((BitVec.ofNat 16 (ctrlNum packettype masked s) >>> 8) &&& 0xf).toNat = packettype.code := by
  revert s masked
  cases packettype <;> decide +kernel

theorem ofBE_ctrl (masked : Bool) {s : ℕ} (hs : s < 128) :
    ofBE [BitVec.ofNat 8 (0x80 + packettype.code), BitVec.ofNat 8 ((if masked then 128 else 0) + s)] =
      ctrlNum packettype masked s := by
  have hcode : packettype.code < 128 := by cases packettype <;> decide
  have hmask : (if masked then 128 else 0) + s < 256 := by split_ifs <;> omega
  simp only [ofBE, foldl_cons, foldl_nil, BitVec.toNat_ofNat, ctrlNum]
  rw [mod_eq_of_lt (by omega : 0x80 + packettype.code < 2 ^ 8), mod_eq_of_lt hmask]
  omega

theorem ofBE_longLen {n : ℕ} (h : ¬n < 126) (hn : n < 65536) : ofBE (longLen n) = n := by
  rw [longLen, if_neg h]
  simp only [ofBE, foldl_cons, foldl_nil, BitVec.toNat_ofNat]
  omega

namespace Conn

variable {c : Conn}

theorem fetch_of_stream {A B C : List QByte} (h : c.inbuffer ++ c.pending = A ++ (B ++ C)) (ofs n : ℕ)
    (hA : A.length = ofs) (hB : B.length = n) (hle : ofs + n ≤ c.inbuffer.length)
    (k : List QByte → Step) : c.fetch ofs n k = k B := by
  subst hA hB
  have hdrop : c.inbuffer.drop A.length ++ c.pending = B ++ C := by
    rw [← drop_append_of_le_length (by omega), h, drop_left]
  have htake : (c.inbuffer.drop A.length).take B.length = B := by
    rw [← take_append_of_le_length (by rw [length_drop]; omega), hdrop, take_left]
  rw [fetch_of_le hle, htake]

/-- Where the bytes in `inbuffer` end inside of the stream. -/
theorem inbuffer_eq {w rest : List QByte} (h : c.inbuffer ++ c.pending = w ++ rest)
    (hle : w.length ≤ c.inbuffer.length) : c.inbuffer = w ++ c.inbuffer.drop w.length := by
  have hw : c.inbuffer.take w.length = w := by
    rw [← take_append_of_le_length hle, h, take_left]
  rw [← hw, length_take, min_eq_left hle, take_append_drop]

theorem wsLength_frame {packettype : WsPacketType} {masked : Bool} {n : ℕ} (hn : n < 65536)
    {A C : List QByte} (hA : A.length = 2) (h : c.inbuffer ++ c.pending = A ++ (longLen n ++ C))
    (htwo : 2 ≤ c.inbuffer.length) (k : ℕ → ℕ → Step) :
    c.wsLength (BitVec.ofNat 16 (ctrlNum packettype masked (shortLen n))) k =
      if c.inbuffer.length < 2 + (longLen n).length then .ret none c
      else k n (2 + (longLen n).length) := by
  have hlow := (ctrl_spec packettype masked ⟨shortLen n, shortLen_lt n⟩).2.1
  set low := BitVec.ofNat 16 (ctrlNum packettype masked (shortLen n)) &&& 0x7f with hdef
  change low.toNat = shortLen n at hlow
  have hiff : ∀ m < 2 ^ 16, low = BitVec.ofNat 16 m ↔ shortLen n = m := by
    intro m hm
    rw [← BitVec.toNat_inj, hlow, BitVec.toNat_ofNat, mod_eq_of_lt hm]
  have h127 : ¬low = 127 := by
    change ¬low = BitVec.ofNat 16 127
    rw [hiff 127 (by decide), shortLen]
    split_ifs <;> omega
  have h126 : low = 126 ↔ ¬n < 126 := by
    change low = BitVec.ofNat 16 126 ↔ _
    rw [hiff 126 (by decide), shortLen]
    split_ifs <;> omega
  rw [wsLength, ← hdef, if_neg h127, length_longLen]
  by_cases hn' : n < 126
  · rw [if_neg (by rw [h126]; exact not_not.mpr hn'), if_pos hn', if_neg (by omega), hlow]
    rw [shortLen, if_pos hn']
  · have hlen : (longLen n).length = 2 := by rw [length_longLen, if_neg hn']
    rw [if_pos (h126.mpr hn'), if_neg hn']
    split_ifs with hshort
    · rfl
    · rw [fetch_of_stream h 2 2 hA hlen (by omega), ofBE_longLen hn' hn, if_neg hn']

theorem wsMask_frame {packettype : WsPacketType} {mask : Option (Fin 4 → QByte)} {s : ℕ} (hs : s < 128)
    {A C : List QByte} (h : c.inbuffer ++ c.pending = A ++ (maskBytes mask ++ C))
    (hA : A.length ≤ c.inbuffer.length) (k : List QByte → ℕ → Step) :
    c.wsMask (BitVec.ofNat 16 (ctrlNum packettype mask.isSome s)) A.length k =
      if c.inbuffer.length < A.length + (maskBytes mask).length then .ret none c
      else k (mask.elim [0, 0, 0, 0] List.ofFn) (A.length + (maskBytes mask).length) := by
  have hmask := (ctrl_spec packettype mask.isSome ⟨s, hs⟩).2.2.1
  rw [wsMask]
  cases mask with
  | none =>
    rw [if_neg (by rw [hmask]; simp), if_neg (by simpa [maskBytes] using hA)]
    rfl
  | some m =>
    have hlen : (maskBytes (some m)).length = 4 := length_ofFn
    rw [if_pos (hmask.mpr rfl), hlen]
    split_ifs with hshort
    · rfl
    · rw [fetch_of_stream h A.length 4 rfl hlen (by omega)]
      rfl

theorem unmask_unmask (mask body : List QByte) : unmask mask (unmask mask body) = body := by
  apply List.ext_getElem?
  intro i
  simp only [unmask, List.getElem?_mapIdx, Option.map_map]
  cases body[i]? <;> simp [BitVec.xor_assoc]

theorem unmask_zeros (body : List QByte) : unmask [0, 0, 0, 0] body = body := by
  have hzero : ∀ i, [0, 0, 0, 0].getD (i % 4) (0 : QByte) = 0 := by
    intro i
    have hi : i % 4 = 0 ∨ i % 4 = 1 ∨ i % 4 = 2 ∨ i % 4 = 3 := by omega
    rcases hi with hi | hi | hi | hi <;> rw [hi] <;> rfl
  apply List.ext_getElem?
  intro i
  simp only [unmask, List.getElem?_mapIdx, hzero]
  cases body[i]? <;> simp

theorem unmask_maskedPayload (mask : Option (Fin 4 → QByte)) (body : List QByte) :
    unmask (mask.elim [0, 0, 0, 0] List.ofFn) (maskedPayload mask body) = body := by
  cases mask with
  | none => exact unmask_zeros body
  | some m => exact unmask_unmask _ body

theorem length_maskedPayload (mask : Option (Fin 4 → QByte)) (body : List QByte) :
    (maskedPayload mask body).length = body.length := by
  cases mask <;> simp [maskedPayload, unmask]

/-- The connection with these bytes in `inbuffer`. -/
def setInbuffer (c : Conn) (bytes : List QByte) : Conn := { c with inbuffer := bytes }

/-- The payload of a whole frame after it is unmasked. -/
theorem unmaskAt_frame (mask : Option (Fin 4 → QByte)) {head body tail : List QByte}
    (h : c.inbuffer = head ++ maskedPayload mask body ++ tail) :
    c.unmaskAt (mask.elim [0, 0, 0, 0] List.ofFn) head.length body.length =
      c.setInbuffer (head ++ body ++ tail) := by
  have hbody : (c.inbuffer.drop head.length).take body.length = maskedPayload mask body := by
    rw [h, append_assoc, drop_left, ← length_maskedPayload mask body, take_left]
  have htail : c.inbuffer.drop (head.length + body.length) = tail := by
    rw [h, ← length_maskedPayload mask body, ← length_append, drop_left]
  have hhead : c.inbuffer.take head.length = head := by rw [h, append_assoc, take_left]
  rw [unmaskAt]
  split_ifs with hzero
  · have hsame := unmask_maskedPayload mask body
    rw [hzero, unmask_zeros] at hsame
    rw [← hsame, ← h]
    rfl
  · rw [hbody, htail, hhead, unmask_maskedPayload]
    rfl

/-- **A pass over a websocket frame.** A frame that is not whole is waited for. -/
theorem stepWs_frame {packettype : WsPacketType} {data : List QByte} {mask : Option (Fin 4 → QByte)}
    {w rest : List QByte} (hw : maskFrame mask (TcpStream.wsFrame packettype data) = w)
    (hlen : w.length < TcpStream.maxOverallmsglen - 1) (h : c.inbuffer ++ c.pending = w ++ rest) :
    if c.inbuffer.length < w.length then c.stepWs ice = .ret none c
    else ∃ (head : List QByte) (ctrl : BitVec 16),
      ((ctrl >>> 8) &&& 0xf).toNat = packettype.code ∧ 2 ≤ head.length ∧
      w.length = head.length + (payload packettype data).length ∧
      c.stepWs ice = (c.setInbuffer (head ++ payload packettype data ++
        c.inbuffer.drop w.length)).wsFrame ice ctrl head.length
          (payload packettype data).length := by
  rw [maskFrame_wsFrame] at hw
  set body := payload packettype data
  set first : List QByte := [BitVec.ofNat 8 (0x80 + packettype.code),
    BitVec.ofNat 8 ((if mask.isSome then 128 else 0) + shortLen body.length)] with hfirst
  have hwlen : w.length = 2 + (longLen body.length).length + (maskBytes mask).length + body.length := by
    rw [← hw]
    simp only [length_append, length_maskedPayload]
    rfl
  have hn : body.length < 65536 := by
    rw [TcpStream.maxOverallmsglen] at hlen
    omega
  have hctrl := ctrl_spec packettype mask.isSome ⟨_, shortLen_lt body.length⟩
  have h₀ : c.inbuffer ++ c.pending = [] ++ (first ++ (longLen body.length ++ (maskBytes mask ++
      (maskedPayload mask body ++ rest)))) := by
    rw [h, ← hw]
    simp only [append_assoc, nil_append]
  have h₁ : c.inbuffer ++ c.pending = first ++ (longLen body.length ++ (maskBytes mask ++
      (maskedPayload mask body ++ rest))) := h₀
  have h₂ : c.inbuffer ++ c.pending = (first ++ longLen body.length) ++ (maskBytes mask ++
      (maskedPayload mask body ++ rest)) := by
    rw [h₁, append_assoc]
  have hhead : (first ++ longLen body.length).length = 2 + (longLen body.length).length := by
    rw [length_append]
    rfl
  rw [stepWs]
  by_cases hshort : c.inbuffer.length < 2
  · rw [if_pos (by omega), if_pos hshort]
  rw [if_neg hshort, fetch_of_stream h₀ 0 2 rfl rfl (by omega), hfirst,
    ofBE_ctrl _ _ (shortLen_lt _)]
  dsimp only
  rw [if_neg (not_not.mpr hctrl.1), wsLength_frame hn rfl h₁ (not_lt.mp hshort)]
  by_cases hlong : c.inbuffer.length < 2 + (longLen body.length).length
  · rw [if_pos (by omega), if_pos hlong]
  rw [if_neg hlong, ← hhead, wsMask_frame (shortLen_lt _) h₂ (by omega)]
  by_cases hmask : c.inbuffer.length < (first ++ longLen body.length).length + (maskBytes mask).length
  · rw [if_pos (by omega), if_pos hmask]
  rw [if_neg hmask, ← length_append]
  have hsum : (first ++ longLen body.length ++ maskBytes mask).length + body.length = w.length := by
    rw [length_append, hhead, hwlen]
  rw [hsum]
  by_cases hwhole : c.inbuffer.length < w.length
  · rw [if_pos hwhole, if_pos hwhole, if_neg (not_le.mpr hlen)]
  rw [if_neg hwhole, if_neg hwhole]
  have hin : c.inbuffer = first ++ longLen body.length ++ maskBytes mask ++ maskedPayload mask body ++
      c.inbuffer.drop w.length := by
    rw [hw]
    exact inbuffer_eq h (not_lt.mp hwhole)
  refine ⟨first ++ longLen body.length ++ maskBytes mask, _, hctrl.2.2.2, ?_, hsum.symm, ?_⟩
  · rw [length_append, hhead]
    omega
  · rw [unmaskAt_frame mask hin]

theorem finish_setInbuffer (head body tail msg : List QByte) (hmsg : msg.length ≤ TcpStream.maxOverallmsglen) :
    (c.setInbuffer (head ++ body ++ tail)).finish (head.length + body.length) msg =
      if msg = [] then .again (c.setInbuffer tail) else .packet msg (c.setInbuffer tail) := by
  have hdrop : (head ++ body ++ tail).drop (head.length + body.length) = tail := by
    rw [← length_append, drop_left]
  rw [finish, if_neg (not_lt.mpr hmsg)]
  simp only [setInbuffer, hdrop]

theorem fetch_setInbuffer (head body tail : List QByte) (k : List QByte → Step) :
    (c.setInbuffer (head ++ body ++ tail)).fetch head.length body.length k = k body := by
  refine fetch_of_stream (A := head) (C := tail ++ c.pending) ?_ _ _ rfl rfl ?_ k
  · simp only [setInbuffer, append_assoc]
  · simp only [setInbuffer, length_append]
    omega

end Conn

theorem textDecode_cons {room : ℕ} {a : QByte} (h : a &&& 0xe0 ≠ 0xc0) (h' : a &&& 0x80 = 0)
    (rest : List QByte) : textDecode (room + 1) (a :: rest) = a :: textDecode room rest := by
  cases rest with
  | nil =>
    rw [textDecode, if_neg (not_not.mpr h')]
    cases room <;> rfl
  | cons b rest => rw [textDecode, if_neg h, if_neg (not_not.mpr h')]

theorem textDecode_pair {room : ℕ} {a : QByte} (h : a &&& 0xe0 = 0xc0) (b : QByte) (rest : List QByte) :
    textDecode (room + 1) (a :: b :: rest) =
      (((a &&& 0x1f) <<< 6) ||| (b &&& 0x3f)) :: textDecode room rest := by
  rw [textDecode, if_pos h]

theorem ascii_bits : ∀ c : QByte, c.toNat < 0x80 → c &&& 0xe0 ≠ 0xc0 ∧ c &&& 0x80 = 0 := by
  decide +kernel

theorem utf8_bits : ∀ c : QByte, ¬c.toNat < 0x80 →
    BitVec.ofNat 8 (0xc0 + c.toNat / 64) &&& 0xe0 = (0xc0 : QByte) ∧
      ((BitVec.ofNat 8 (0xc0 + c.toNat / 64) &&& 0x1f) <<< 6) |||
        (BitVec.ofNat 8 (0x80 + c.toNat % 64) &&& 0x3f) = c := by
  decide +kernel

theorem textDecode_utf8 (room : ℕ) (c : QByte) (rest : List QByte) :
    textDecode (room + 1) (utf8 (if c = 0 then 0x100 else c.toNat) ++ rest) =
      c :: textDecode room rest := by
  by_cases hzero : c = 0
  · subst hzero
    exact textDecode_pair (by decide) _ _
  rw [if_neg hzero, utf8]
  split_ifs with hascii
  · rw [BitVec.ofNat_toNat, BitVec.setWidth_eq]
    exact textDecode_cons (ascii_bits c hascii).1 (ascii_bits c hascii).2 rest
  · obtain ⟨hlead, hvalue⟩ := utf8_bits c hascii
    rw [cons_append, cons_append, nil_append, textDecode_pair hlead, hvalue]

/-- The text of a packet is the packet again. -/
theorem textDecode_utf8Text {room : ℕ} {data : List QByte} (h : data.length ≤ room) :
    textDecode room (utf8Text data) = data := by
  induction data generalizing room with
  | nil => cases room <;> rfl
  | cons c data ih =>
    obtain ⟨room, rfl⟩ : ∃ m, room = m + 1 := ⟨room - 1, by rw [length_cons] at h; omega⟩
    rw [length_cons, add_le_add_iff_right] at h
    change textDecode (room + 1) (utf8 (if c = 0 then 0x100 else c.toNat) ++ utf8Text data) = _
    rw [textDecode_utf8, ih h]

theorem length_le_utf8Text (data : List QByte) : data.length ≤ (utf8Text data).length := by
  induction data with
  | nil => exact zero_le _
  | cons c data ih =>
    change _ ≤ (utf8 (if c = 0 then 0x100 else c.toNat) ++ utf8Text data).length
    rw [length_append, TcpStream.utf8_length, length_cons]
    split_ifs <;> omega

/-- What a pass makes of a frame that is whole, when `tail` is behind it. -/
inductive Took (c : Conn) (f : Frame) (tail : List QByte) : Step → Prop
  | packet {msg : List QByte} (h : f.packet = some msg) :
    Took c f tail (.packet msg (c.setInbuffer tail))
  | control {c' : Conn} (h : f.packet = none) (hkeeps : c.Keeps c') (htail : c'.inbuffer = tail) :
    Took c f tail (.again c')
  | refused {data : List QByte} {mask : Option (Fin 4 → QByte)} {c' : Conn}
    (h : f = .ws .ping data mask) (hdelivered : c'.delivered = c.delivered)
    (hfull : TcpStream.maxOverallmsglen < c'.out.outbuffer.length + 6 + data.length) :
    Took c f tail (.ret (some "write error") c')

namespace Conn

variable {c : Conn}

variable {data : List QByte}

theorem pong_reply (hfits : c.Fits) (hlen : 6 + data.length ≤ TcpStream.maxOverallmsglen) (done : ℤ) :
    (∃ out, c.out.splurge .pong data done = some (.sent, out) ∧
      out.outbuffer.length ≤ TcpStream.maxOverallmsglen) ∨
    c.out.splurge .pong data done = some (.clogged, c.out) ∧
      TcpStream.maxOverallmsglen < c.out.outbuffer.length + 6 + data.length := by
  have hout := hfits.outlen
  have hpay : (payload .pong data).length = data.length := rfl
  have hwire := (TcpStream.Stream.wsFrame_length .pong data).2
  rw [hpay] at hwire
  rw [TcpStream.Stream.splurge_eq c.out done hpay (by rw [TcpStream.maxOverallmsglen] at hlen; omega),
    mod_eq_of_lt (by rw [TcpStream.maxOverallmsglen] at hlen; omega),
    mod_eq_of_lt (by rw [TcpStream.maxOverallmsglen] at hlen hout; omega), if_neg (not_lt.mpr hlen)]
  split_ifs with hclogged
  · exact .inr ⟨rfl, hclogged⟩
  · have hroom : c.out.outbuffer.length + (TcpStream.wsFrame .pong data).length ≤
        TcpStream.maxOverallmsglen := by
      omega
    obtain ⟨out, hrun, hadds⟩ := TcpStream.Stream.append_adds hroom
    rw [hrun]
    exact .inl ⟨_, rfl, (hadds.flush done).fits⟩

@[simp] theorem setInbuffer_clienttype (bytes : List QByte) :
    (c.setInbuffer bytes).clienttype = c.clienttype := rfl

theorem setInbuffer_keeps (hfits : c.Fits) (bytes : List QByte) : c.Keeps (c.setInbuffer bytes) :=
  ⟨rfl, rfl, rfl, rfl, hfits.outlen⟩

/-- A text frame. -/
theorem textFrame_took (mask : Option (Fin 4 → QByte)) (hdata : data ≠ [])
    (hlen : data.length ≤ TcpStream.maxOverallmsglen) (head tail : List QByte) :
    Took c (.ws .textframe data mask) tail
      ((c.setInbuffer (head ++ utf8Text data ++ tail)).fetch head.length
        (utf8Text data).length fun text =>
          (c.setInbuffer (head ++ utf8Text data ++ tail)).finish
            (head.length + (utf8Text data).length) (textDecode TcpStream.maxOverallmsglen text)) := by
  rw [fetch_setInbuffer, finish_setInbuffer _ _ _ _ (textDecode_length_le ..), textDecode_utf8Text hlen, if_neg hdata]
  exact .packet rfl

/-- A binary frame for a game. -/
theorem binaryFrame_took (mask : Option (Fin 4 → QByte)) (hdata : data ≠ [])
    (hlen : data.length + 8 < TcpStream.maxOverallmsglen)
    (htype : c.clienttype = .websocketU ∨ c.clienttype = .websocketB) (head tail : List QByte) :
    Took c (.ws .binaryframe data mask) tail
      ((c.setInbuffer (head ++ data ++ tail)).binaryFrame ice head.length data.length) := by
  have htype' : ∀ t, t = RecvType.websocketU ∨ t = RecvType.websocketB →
      t ≠ .webrtcClient ∧ t ≠ .webrtcHost ∧ t ≠ .websocketNQ := by
    rintro t (rfl | rfl) <;> decide
  obtain ⟨hclient, hhost, hnq⟩ := htype' _ htype
  rw [binaryFrame, if_neg (not_le.mpr hlen), setInbuffer_clienttype, if_neg (fun h => hclient h.1),
    if_neg hhost, relayOrPacket, setInbuffer_clienttype, if_neg (fun h => h.1.elim hclient hhost),
    if_neg (fun h => hnq h.1), fetch_setInbuffer,
    finish_setInbuffer _ _ _ _ (by omega), if_neg hdata]
  exact .packet rfl

/-- A ping. -/
theorem pingFrame_took (hfits : c.Fits) (mask : Option (Fin 4 → QByte))
    (hlen : 6 + data.length ≤ TcpStream.maxOverallmsglen) (head tail : List QByte) :
    Took c (.ws .ping data mask) tail
      ((c.setInbuffer (head ++ data ++ tail)).pingFrame head.length data.length) := by
  rw [pingFrame, fetch_setInbuffer]
  have hreply := pong_reply hfits hlen (c.writes.headD 0)
  change Took c _ tail (match c.out.splurge .pong data (c.writes.headD 0) with
    | none => .fault
    | some (.sent, out) =>
      ({ c with out := out, writes := c.writes.tail }.setInbuffer (head ++ data ++ tail)).finish
        (head.length + data.length) []
    | some (_, out) =>
      .ret (some "write error") { c.setInbuffer (head ++ data ++ tail) with out := out })
  rcases hreply with ⟨out, hrun, hout⟩ | ⟨hrun, hfull⟩
  · rw [hrun]
    dsimp only
    rw [finish_setInbuffer _ _ _ _ (zero_le _), if_pos rfl]
    exact .control rfl ⟨rfl, rfl, rfl, rfl, hout⟩ rfl
  · rw [hrun]
    exact .refused rfl rfl hfull

/-- A pong. -/
theorem pongFrame_took (hfits : c.Fits) (data : List QByte) (mask : Option (Fin 4 → QByte)) (head tail : List QByte) :
    Took c (.ws .pong data mask) tail
      ((c.setInbuffer (head ++ data ++ tail)).finish (head.length + data.length) []) := by
  rw [finish_setInbuffer _ _ _ _ (zero_le _), if_pos rfl]
  exact .control rfl (setInbuffer_keeps hfits tail) rfl

end Conn

variable {c : Conn} {data w : List QByte}

/-- What is left of a frame that was put into an empty `outbuffer`. -/
theorem sentBytes_append {st : TcpStream.Stream} {bytes : List QByte}
    {f : TcpStream.Stream → TcpStream.Stream} (hf : ∀ st, (f st).outbuffer = st.outbuffer)
    (h : ((st.append bytes).map fun st => (NetErr.sent, f st)).bind sentBytes = some w) :
    w = st.outbuffer ++ bytes ∧ st.outbuffer.length + bytes.length ≤ TcpStream.maxOverallmsglen := by
  rw [TcpStream.Stream.append] at h
  split_ifs at h with hroom
  · rw [Option.map_some, Option.bind_some, sentBytes, hf] at h
    exact ⟨(Option.some.inj h).symm, hroom⟩
  · cases h

theorem flush_zero (st : TcpStream.Stream) :
    (if st.outbuffer ≠ [] then st.flush 0 else st).outbuffer = st.outbuffer := by
  split_ifs
  · rfl
  · rfl

/-- What a websocket sender leaves is the frame. -/
theorem splurge_bytes {packettype : WsPacketType}
    (h : ((connected .websocketB).splurge packettype data 0).bind sentBytes = some w) :
    w = TcpStream.wsFrame packettype data := by
  by_cases hn : (payload packettype data).length < 2 ^ 32
  · rw [TcpStream.Stream.splurge_eq _ 0 rfl hn] at h
    split_ifs at h
    · cases h
    · cases h
    · exact (sentBytes_append flush_zero h).1
  · simp only [TcpStream.Stream.splurge, TcpStream.text_iff, TcpStream.paylen_eq, TcpStream.body_eq] at h
    split_ifs at h
    all_goals first
      | cases h
      | have hroom := (sentBytes_append flush_zero h).2
        simp only [length_append, TcpStream.maxOverallmsglen] at hroom
        omega

theorem frameQizmo_bytes (h : ((connected .qizmo).frameQizmo data).bind sentBytes = some w) :
    w = qizmoFrame data := by
  rw [TcpStream.Stream.frameQizmo] at h
  split_ifs at h
  · cases h
  · cases h
  · cases h
  next hlong hroom =>
  rw [TcpStream.Stream.qizmoFrame_eq hlong] at h
  exact (sentBytes_append (f := id) (fun _ => rfl) h).1

/-- A pass over a qizmo frame. -/
theorem stepQizmo_frame {rest : List QByte} (hlen : data.length < 2 ^ 15)
    (h : c.inbuffer ++ c.pending = qizmoFrame data ++ rest) :
    if c.inbuffer.length < (qizmoFrame data).length then c.stepQizmo = .ret none c
    else c.stepQizmo =
      .packet data (c.setInbuffer (c.inbuffer.drop (qizmoFrame data).length)) := by
  have hsize : (qizmoFrame data).length = 2 + data.length := by
    rw [qizmoFrame, length_append]
    rfl
  have hbytes : ofBE [BitVec.ofNat 8 (data.length / 256), BitVec.ofNat 8 (data.length % 256)] =
      data.length := by
    simp only [ofBE, foldl_cons, foldl_nil, BitVec.toNat_ofNat]
    omega
  have hint : (BitVec.ofNat 16 data.length).toInt = data.length := by
    rw [BitVec.toInt_eq_toNat_of_lt, BitVec.toNat_ofNat, mod_eq_of_lt (by omega)]
    rw [BitVec.toNat_ofNat]
    omega
  have h₀ : c.inbuffer ++ c.pending = [] ++ ([BitVec.ofNat 8 (data.length / 256),
      BitVec.ofNat 8 (data.length % 256)] ++ (data ++ rest)) := by
    rw [h, qizmoFrame, append_assoc, nil_append]
  have h₁ : c.inbuffer ++ c.pending = [BitVec.ofNat 8 (data.length / 256),
      BitVec.ofNat 8 (data.length % 256)] ++ (data ++ rest) := h₀
  rw [hsize, Conn.stepQizmo]
  by_cases hshort : c.inbuffer.length < 2
  · rw [if_pos (by omega), if_pos hshort]
  rw [if_neg hshort, Conn.fetch_of_stream h₀ 0 2 rfl rfl (by omega), hbytes]
  dsimp only
  have hfits : ¬((data.length : ℤ) < 0 ∨ (TcpStream.maxOverallmsglen : ℤ) ≤ data.length) := by
    have : TcpStream.maxOverallmsglen = 65536 := rfl
    omega
  rw [hint, if_neg hfits]
  by_cases hwhole : c.inbuffer.length < 2 + data.length
  · rw [if_pos hwhole, if_pos (by omega)]
  · rw [if_neg hwhole, if_neg (by omega), Int.toNat_natCast,
      Conn.fetch_of_stream h₁ 2 data.length rfl rfl (by omega), add_comm data.length]
    rfl

/-- **A pass over a frame.** A frame that is not whole is waited for. -/
theorem step_frame (ice : Ice) (hfits : c.Fits) {f : Frame} {rest : List QByte} (hwire : f.wire = some w)
    (hf : f.Sendable c.clienttype w) (h : c.inbuffer ++ c.pending = w ++ rest) :
    2 ≤ w.length ∧
      if c.inbuffer.length < w.length then c.step ice = .ret none c
      else Took c f (c.inbuffer.drop w.length) (c.step ice) := by
  cases f with
  | qizmo data =>
    obtain ⟨htype, -, hshort⟩ := hf
    obtain rfl := frameQizmo_bytes hwire
    refine ⟨by simp [qizmoFrame], ?_⟩
    have hstep := stepQizmo_frame hshort h
    rw [Conn.step, if_pos htype]
    split_ifs at hstep ⊢
    · exact hstep
    · rw [hstep]
      exact .packet rfl
  | ws packettype data mask =>
    obtain ⟨htype, hlen, hdata⟩ := hf
    obtain ⟨w', hsent, rfl⟩ := Option.map_eq_some_iff.1 hwire
    obtain rfl := splurge_bytes hsent
    have hws : c.clienttype ≠ .qizmo := by rcases htype with htype | htype <;> rw [htype] <;> decide
    have hstep := @Conn.stepWs_frame ice _ _ _ _ _ _ rfl hlen h
    rw [Conn.step, if_neg hws]
    have hparts := congrArg List.length (maskFrame_wsFrame mask packettype data)
    rw [length_append, Conn.length_maskedPayload, length_append, length_append] at hparts
    have hhead : 2 ≤ (maskFrame mask (TcpStream.wsFrame packettype data)).length := by
      rw [hparts]
      simp only [length_cons]
      omega
    refine ⟨hhead, ?_⟩
    have hpong : 6 + (payload packettype data).length ≤ TcpStream.maxOverallmsglen := by
      rw [length_longLen] at hparts
      simp only [length_cons, length_nil] at hparts
      rw [TcpStream.maxOverallmsglen] at *
      split_ifs at hparts <;> omega
    split_ifs at hstep ⊢ with hwhole
    · exact hstep
    · obtain ⟨head, ctrl, hcode, htwo, hsum, hrun⟩ := hstep
      rw [hrun, Conn.wsFrame, hcode]
      rcases hdata with ⟨rfl, hne⟩ | ⟨rfl, hne, hsmall⟩ | rfl | rfl
      · have hle := length_le_utf8Text data
        exact Conn.textFrame_took mask hne (hle.trans (le_of_add_le_right hpong)) head _
      · exact Conn.binaryFrame_took mask hne hsmall htype head _
      · exact Conn.pingFrame_took hfits mask hpong head _
      · exact Conn.pongFrame_took hfits data mask head _

/-! ## Streams of frames -/

/-- How a call ends that reads a stream of frames. It returned and waits for the rest of a frame; or it
was refused room for the answer to a ping. -/
def Ends (sent : List (Frame × List QByte)) (c : Conn) (err : Option String) (c' : Conn) : Prop :=
  ∃ done rest, sent = done ++ rest ∧
    c'.delivered = c.delivered ++ done.filterMap (fun p => p.1.packet) ∧
    ((err = none ∧ c'.Fits ∧ c'.clienttype = c.clienttype ∧
        c'.inbuffer ++ c'.pending = rest.flatMap Prod.snd ∧
        ∀ p ∈ rest.head?, c'.inbuffer.length < p.2.length) ∨
      (err = some "write error" ∧ ∃ data mask w, rest.head? = some (.ws .ping data mask, w) ∧
        TcpStream.maxOverallmsglen < c'.out.outbuffer.length + 6 + data.length))

/-- Frames with their bytes, for a peer. -/
def AllSent (clienttype : RecvType) (sent : List (Frame × List QByte)) : Prop :=
  ∀ p ∈ sent, p.1.wire = some p.2 ∧ p.1.Sendable clienttype p.2

theorem Ends.cons {sent : List (Frame × List QByte)} {c d c' : Conn} {err : Option String}
    (h : Ends sent d err c') (p : Frame × List QByte) (htype : d.clienttype = c.clienttype)
    (hdelivered : d.delivered = c.delivered ++ p.1.packet.toList) : Ends (p :: sent) c err c' := by
  obtain ⟨done, rest, rfl, hdone, hend⟩ := h
  refine ⟨p :: done, rest, rfl, ?_, htype ▸ hend⟩
  rw [hdone, hdelivered, append_assoc, filterMap_cons]
  cases p.1.packet <;> rfl

theorem entered_stream (restart : Bool) (hfits : c.Fits) (hreads : ∀ r ∈ c.reads, 0 ≤ r) :
    ∃ d, entered restart c = some d ∧ d.Fits ∧ d.clienttype = c.clienttype ∧
      d.delivered = c.delivered ∧ (∀ r ∈ d.reads, 0 ≤ r) ∧
      d.inbuffer ++ d.pending = c.inbuffer ++ c.pending := by
  obtain ⟨d, hd⟩ : ∃ d, entered restart c = some d := by
    rw [entered, Conn.vfsRead]
    dsimp only
    split_ifs with hrestart hroom hlost
    · cases hc : c.reads with
      | nil => simp [hc] at hlost
      | cons r reads =>
        have hr := hreads r (by simp [hc])
        simp only [hc, headD_cons] at hlost
        omega
    · exact ⟨_, rfl⟩
    · exact ⟨_, rfl⟩
    · exact ⟨_, rfl⟩
  obtain ⟨hfits', htype, hdelivered, hsuffix, n, -, hin, hpending⟩ := entered_spec hfits hd
  refine ⟨d, hd, hfits', htype, hdelivered, fun r hr => hreads r (hsuffix.subset hr), ?_⟩
  rw [hin, hpending, append_assoc, take_append_drop]

theorem step_idle (h : c.inbuffer = []) : c.step ice = .ret none c := by
  rw [Conn.step, Conn.stepQizmo, Conn.stepWs, h]
  simp

/-- The run lemma. -/
theorem run_frames {fuel : ℕ} {restart : Bool} {c : Conn} {sent : List (Frame × List QByte)} (hfits : c.Fits)
    (hsent : AllSent c.clienttype sent) (hstream : c.inbuffer ++ c.pending = sent.flatMap Prod.snd)
    (hreads : ∀ r ∈ c.reads, 0 ≤ r) (hfuel : (c.inbuffer ++ c.pending).length < fuel) :
    ∃ err c', run ice fuel restart c = .returned err c' ∧ Ends sent c err c' := by
  induction fuel generalizing restart c sent with
  | zero => omega
  | succ fuel ih =>
    obtain ⟨d, hread, hfits', htype, hdelivered, hreads', hsame⟩ :=
      entered_stream restart hfits hreads
    rw [← hsame] at hstream hfuel
    rw [← htype] at hsent
    have hwait : ∀ {rest}, d.inbuffer ++ d.pending = rest.flatMap Prod.snd →
        (∀ p ∈ rest.head?, d.inbuffer.length < p.2.length) → Ends rest c none d := fun hrest hmore =>
      ⟨[], _, rfl, by simpa using hdelivered, .inl ⟨rfl, hfits', htype, hrest, hmore⟩⟩
    cases sent with
    | nil =>
      have hempty := List.append_eq_nil_iff.1 hstream
      exact ⟨none, d, run_ret hread (step_idle hempty.1), hwait hstream (by simp)⟩
    | cons p sent =>
      obtain ⟨hwire, hp⟩ := hsent p (by simp)
      have hrest : AllSent d.clienttype sent := fun q hq => hsent q (mem_cons_of_mem p hq)
      rw [flatMap_cons] at hstream
      obtain ⟨htwo, hstep⟩ := step_frame ice hfits' hwire hp hstream
      split_ifs at hstep with hwhole
      · exact ⟨none, d, run_ret hread hstep, hwait hstream (by simpa using hwhole)⟩
      have htail : d.inbuffer.drop p.2.length ++ d.pending = sent.flatMap Prod.snd := by
        rw [← drop_append_of_le_length (not_lt.mp hwhole), hstream, drop_left]
      have hshorter : (d.inbuffer.drop p.2.length ++ d.pending).length < fuel := by
        rw [length_append, length_drop]
        rw [length_append] at hfuel
        omega
      have hsmall : (d.inbuffer.drop p.2.length).length < TcpStream.maxOverallmsglen := by
        rw [length_drop]
        exact (sub_le ..).trans_lt hfits'.inlen
      generalize hs : d.step ice = s at hstep
      cases hstep with
      | packet hpacket =>
        rename_i msg
        rw [run_packet hread hs]
        obtain ⟨err, c', hrun, hend⟩ := @ih true
          { d.setInbuffer (d.inbuffer.drop p.2.length) with delivered := d.delivered ++ [msg] } sent
          ⟨hsmall, hfits'.outlen⟩ hrest htail hreads' hshorter
        refine ⟨err, c', hrun, hend.cons p htype ?_⟩
        rw [hpacket, ← hdelivered]
        rfl
      | control hpacket hkeeps htail' =>
        rename_i e
        rw [run_again hread hs]
        have htail'' : e.inbuffer ++ e.pending = sent.flatMap Prod.snd := by
          rw [htail', hkeeps.pending, htail]
        obtain ⟨err, c', hrun, hend⟩ := @ih false e sent ⟨htail' ▸ hsmall, hkeeps.outlen⟩
          (hkeeps.clienttype ▸ hrest) htail'' (hkeeps.reads ▸ hreads')
          (by rw [htail', hkeeps.pending]; exact hshorter)
        refine ⟨err, c', hrun, hend.cons p (hkeeps.clienttype.trans htype) ?_⟩
        rw [hpacket, hkeeps.delivered, hdelivered, Option.toList_none, append_nil]
      | refused hping hdelivered' hfull =>
        rename_i data mask e
        refine ⟨_, e, run_ret hread hs, [], p :: sent, rfl, ?_, .inr ⟨rfl, data, mask, p.2, ?_, hfull⟩⟩
        · rw [hdelivered', hdelivered]
          simp
        · rw [List.head?_cons, ← hping]

/-- A call: the sizes of its reads, the results of its writes, and what waits to be sent. -/
structure Call where
  reads : List ℕ
  writes : List ℤ
  out : {st : TcpStream.Stream // st.outbuffer.length ≤ TcpStream.maxOverallmsglen}

/-- The connection when a call begins. -/
def Conn.begin (c : Conn) (call : Call) : Conn :=
  { c with reads := call.reads.map (↑), writes := call.writes, out := call.out.1 }

/-- Calls until one returns an error; `none` where one does not return at all. -/
def receive (ice : Ice) : Conn → List Call → Option (Option String × Conn)
  | c, [] => some (none, c)
  | c, call :: calls =>
    match readStream ice (c.begin call) with
    | .returned none c => receive ice c calls
    | .returned (some err) c => some (some err, c)
    | _ => none

/-- A connection behind the handshake, with these bytes to come. -/
def start (clienttype : RecvType) (bytes : List QByte) : Conn :=
  ⟨clienttype, [], TcpStream.connected .qizmo, true, 0, [], bytes, [], []⟩

theorem Ends.trans {sent rest : List (Frame × List QByte)} {d c' : Conn} {err : Option String}
    {done : List (Frame × List QByte)} (hsent : sent = done ++ rest)
    (hdelivered : d.delivered = c.delivered ++ done.filterMap (fun p => p.1.packet))
    (htype : d.clienttype = c.clienttype) (h : Ends rest d err c') : Ends sent c err c' := by
  obtain ⟨more, rest', rfl, hmore, hend⟩ := h
  refine ⟨done ++ more, rest', by rw [hsent, append_assoc], ?_, htype ▸ hend⟩
  rw [hmore, hdelivered, append_assoc, filterMap_append]

theorem receive_frames {c : Conn} {sent : List (Frame × List QByte)} (hfits : c.Fits)
    (hsent : AllSent c.clienttype sent)
    (hstream : c.inbuffer ++ c.pending = sent.flatMap Prod.snd) {calls : List Call} (hcalls : calls ≠ []) :
    ∃ err c', receive ice c calls = some (err, c') ∧ Ends sent c err c' := by
  induction calls generalizing c sent with
  | nil => exact absurd rfl hcalls
  | cons call calls ih =>
    have hreads : ∀ r ∈ (c.begin call).reads, 0 ≤ r := by
      intro r hr
      obtain ⟨n, -, rfl⟩ := List.mem_map.1 hr
      exact Int.natCast_nonneg n
    have hfits' : (c.begin call).Fits := ⟨hfits.inlen, call.out.2⟩
    obtain ⟨err, d, hrun, hends⟩ : ∃ err d, readStream ice (c.begin call) = .returned err d ∧
        Ends sent (c.begin call) err d :=
      run_frames hfits' hsent hstream hreads (lt_succ_of_le (length_append ..).le)
    rw [receive, hrun]
    obtain ⟨done, rest, hsplit, hdelivered, hend⟩ := id hends
    rcases hend with ⟨rfl, hfits'', htype, hrest, -⟩ | ⟨rfl, -⟩
    · by_cases hmore : calls = []
      · subst hmore
        exact ⟨none, d, rfl, hends⟩
      · have hsent' : AllSent d.clienttype rest := fun p hp =>
          htype ▸ hsent p (hsplit ▸ mem_append_right done hp)
        obtain ⟨err, c', hrun', hends'⟩ := ih hfits'' hsent' hrest hmore
        exact ⟨err, c', hrun', hends'.trans hsplit hdelivered htype⟩
    · exact ⟨_, d, rfl, hends⟩

/-- **Framing round trip.** Whatever the cuts of a stream of frames, the packets that are passed on are
those of its first frames, in order; they are those of all its frames when everything was read, unless
there was no room for the answer to a ping. On any stream, a call returns, stays inside of the bytes in
`inbuffer` and of `net_message_buffer`, and leaves no more than there was and was read. -/
theorem readStream_frames (ice : Ice) :
    (∀ clienttype sent, AllSent clienttype sent → ∀ calls, calls ≠ [] →
      ∃ err c', receive ice (start clienttype (sent.flatMap Prod.snd)) calls = some (err, c') ∧
        Ends sent (start clienttype (sent.flatMap Prod.snd)) err c' ∧
        (err = none → c'.pending = [] →
          c'.delivered = sent.filterMap (fun p => p.1.packet) ∧ c'.inbuffer = [])) ∧
    ∀ c : Conn, c.Fits → c.clienttype ≠ .webrtcHost →
      ∃ err c', readStream ice c = .returned err c' ∧ c'.Fits ∧
        ∃ n ≤ c.pending.length, c'.pending = c.pending.drop n ∧
          c'.inbuffer.length ≤ c.inbuffer.length + n := by
  refine ⟨fun clienttype sent hsent calls hcalls => ?_, fun c hfits htype => ?_⟩
  · have hfits : (start clienttype (sent.flatMap Prod.snd)).Fits :=
      ⟨Nat.zero_lt_succ _, Nat.zero_le _⟩
    obtain ⟨err, c', hrun, hends⟩ := @receive_frames ice _ _ hfits hsent rfl calls hcalls
    refine ⟨err, c', hrun, hends, fun herr hpending => ?_⟩
    obtain ⟨done, rest, hsplit, hdelivered, hend⟩ := hends
    rcases hend with ⟨-, -, -, hrest, hmore⟩ | ⟨herr', -⟩
    · rw [hpending, List.append_nil] at hrest
      have hnone : rest = [] := by
        cases rest with
        | nil => rfl
        | cons p rest =>
          have hlt := hmore p rfl
          rw [hrest, List.flatMap_cons, List.length_append] at hlt
          omega
      subst hnone
      rw [List.append_nil] at hsplit
      exact ⟨by rw [hdelivered, hsplit]; rfl, hrest⟩
    · exact absurd (herr.symm.trans herr') (by simp)
  · exact run_safe hfits htype (Nat.lt_succ_self _)

/-- No WebRTC. -/
def noIce : Ice := ⟨fun _ => none, fun h => by cases h⟩

/-- Under a mask: `"hi"`. -/
def maskedHi : Frame × List QByte :=
  (.ws .binaryframe [0x68, 0x69] (some fun _ => 1), [0x82, 0x82, 1, 1, 1, 1, 0x69, 0x68])

theorem readStream_maskedHi : ∃ err c',
    receive noIce (start .websocketB [0x82, 0x82, 1, 1, 1, 1, 0x69, 0x68])
      [⟨[3], [], ⟨TcpStream.connected .qizmo, by decide⟩⟩,
        ⟨[5], [], ⟨TcpStream.connected .qizmo, by decide⟩⟩] = some (err, c') ∧
    Ends [maskedHi] (start .websocketB [0x82, 0x82, 1, 1, 1, 1, 0x69, 0x68]) err c' ∧
    (err = none → c'.pending = [] → c'.delivered = [[0x68, 0x69]] ∧ c'.inbuffer = []) := by
  have hsent : AllSent .websocketB [maskedHi] := by
    intro p hp
    obtain rfl := List.mem_singleton.1 hp
    exact ⟨by decide +kernel, .inr rfl, by decide, .inr (.inl ⟨rfl, by simp, by decide⟩)⟩
  exact (readStream_frames noIce).1 .websocketB [maskedHi] hsent _ (by simp)

/-- A full `outbuffer`. -/
def fullOut : TcpStream.Stream := ⟨.qizmo, List.replicate TcpStream.maxOverallmsglen 0, []⟩

theorem fullOut_outlen : fullOut.outbuffer.length = TcpStream.maxOverallmsglen := length_replicate

theorem splurge_fullOut (data : List QByte) (h : data.length + 6 ≤ TcpStream.maxOverallmsglen) (done : ℤ) :
    fullOut.splurge .pong data done = some (.clogged, fullOut) := by
  have hpay : (payload .pong data).length = data.length := rfl
  rw [TcpStream.maxOverallmsglen] at h
  rw [TcpStream.Stream.splurge_eq fullOut done hpay (by omega), fullOut_outlen,
    TcpStream.maxOverallmsglen, if_neg (by omega), if_pos (by omega)]

theorem pingFrame_clogged {payoffs paylen : ℕ} (h : payoffs + paylen ≤ c.inbuffer.length)
    (hrun : c.out.splurge .pong ((c.inbuffer.drop payoffs).take paylen) (c.writes.headD 0) =
      some (.clogged, c.out)) : c.pingFrame payoffs paylen = .ret (some "write error") c := by
  rw [Conn.pingFrame, Conn.fetch_of_le h, hrun]

/-- A ping and a packet have been read. -/
def pinged (out : TcpStream.Stream) : Conn :=
  ⟨.websocketB, [0x89, 0, 0x82, 1, 7], out, true, 0, [], [], [], []⟩

theorem step_pinged (out : TcpStream.Stream) :
    (pinged out).step noIce = (pinged out).pingFrame 2 0 := by
  rw [Conn.step, if_neg (by simp [pinged]), Conn.stepWs, if_neg (by simp [pinged]), Conn.fetch,
    if_pos (by simp [pinged])]
  dsimp only [pinged]
  rw [if_neg (by decide), Conn.wsLength, if_neg (by decide), if_neg (by decide), Conn.wsMask,
    if_neg (by decide), if_neg (by simp [ofBE, TcpStream.maxOverallmsglen]), Conn.unmaskAt,
    if_pos rfl, Conn.wsFrame]
  rfl

/-- A packet behind a ping that finds no room for its answer. -/
theorem readStream_clogged : ∃ c', receive noIce (start .websocketB [0x89, 0, 0x82, 1, 7])
    [⟨[5], [], ⟨fullOut, fullOut_outlen.le⟩⟩] = some (some "write error", c') ∧ c'.delivered = [] := by
  set c := (start .websocketB [0x89, 0, 0x82, 1, 7]).begin ⟨[5], [], ⟨fullOut, fullOut_outlen.le⟩⟩ with hc
  have hread : entered true c = some (pinged fullOut) := rfl
  have hstep : (pinged fullOut).step noIce = .ret (some "write error") (pinged fullOut) := by
    rw [step_pinged]
    refine pingFrame_clogged (by simp [pinged]) (splurge_fullOut _ ?_ _)
    simp [pinged, TcpStream.maxOverallmsglen]
  exact ⟨_, by rw [receive, ← hc, readStream, run_ret hread hstep], rfl⟩

/-- A qizmo packet whose length is taken for a negative number. -/
theorem readStream_oversize (rest : List QByte) : ∃ c',
    receive noIce (start .qizmo (0x80 :: 0 :: rest))
      [⟨[2], [], ⟨TcpStream.connected .qizmo, by decide⟩⟩] = some (some "oversize", c') := by
  set c := (start .qizmo (0x80 :: 0 :: rest)).begin ⟨[2], [], ⟨connected .qizmo, by decide⟩⟩ with hc
  set d : Conn := { c with inbuffer := [0x80, 0], pending := rest, reads := [] }
  have hread : entered true c = some d := rfl
  have hstep : d.step noIce = .ret (some "oversize") d := rfl
  exact ⟨d, by rw [receive, ← hc, readStream, run_ret hread hstep]⟩

theorem qizmo_wire (h : data.length + 2 ≤ 0xffff) :
    (Frame.qizmo data).wire = some (qizmoFrame data) := by
  have hlen : (qizmoFrame data).length = 2 + data.length := by
    rw [qizmoFrame, length_append]
    rfl
  have hroom : (connected .qizmo).outbuffer.length + (qizmoFrame data).length ≤
      TcpStream.maxOverallmsglen := by
    rw [hlen, TcpStream.maxOverallmsglen]
    simp only [connected, length_nil]
    omega
  have hfull : ¬TcpStream.maxOverallmsglen < (connected .qizmo).outbuffer.length + 2 + data.length := by
    rw [hlen] at hroom
    omega
  rw [Frame.wire, TcpStream.Stream.frameQizmo, if_neg (by omega), if_neg hfull,
    TcpStream.Stream.qizmoFrame_eq (by omega), TcpStream.Stream.append, if_pos hroom]
  rfl

/-- A packet behind a ping is lost when the answer finds no room; a broker's message to a host may end
the bytes that there are, and then the null byte behind it is none of them; and the length of a long
qizmo packet is taken for a negative one. -/
theorem readStream_drops :
    (AllSent .websocketB [(.ws .ping [] none, [0x89, 0]), (.ws .binaryframe [7] none, [0x82, 1, 7])] ∧
      ∃ c', receive noIce (start .websocketB [0x89, 0, 0x82, 1, 7])
        [⟨[5], [], ⟨fullOut, fullOut_outlen.le⟩⟩] = some (some "write error", c') ∧
        c'.delivered = []) ∧
    receive noIce (start .webrtcHost [0x82, 3, 6, 0, 0])
      [⟨[5], [], ⟨TcpStream.connected .qizmo, by decide⟩⟩] = none ∧
    (Frame.qizmo (List.replicate (2 ^ 15) 0)).wire =
        some (0x80 :: 0 :: List.replicate (2 ^ 15) (0 : QByte)) ∧
      ∃ c', receive noIce (start .qizmo (0x80 :: 0 :: List.replicate (2 ^ 15) 0))
        [⟨[2], [], ⟨TcpStream.connected .qizmo, by decide⟩⟩] = some (some "oversize", c') := by
  refine ⟨⟨?_, readStream_clogged⟩, rfl, ?_, readStream_oversize _⟩
  · intro p hp
    rcases List.mem_cons.1 hp with rfl | hp
    · exact ⟨by decide +kernel, .inr rfl, by decide, .inr (.inr (.inl rfl))⟩
    · obtain rfl := List.mem_singleton.1 hp
      exact ⟨by decide +kernel, .inr rfl, by decide, .inr (.inl ⟨rfl, by simp, by decide⟩)⟩
  · rw [qizmo_wire (by rw [List.length_replicate]; decide), TcpStream.qizmoFrame,
      List.length_replicate]
    rfl

/-! ## Both ends -/

open TcpStream (Op ClientType connected wsFrame payload)

variable {t : ClientType} {rt : RecvType} {op : Op} {ops : List Op} {frames : List QByte} {st st' : TcpStream.Stream}
  {packettype : WsPacketType}

/-- What a call sends. -/
def frameOf (t : ClientType) : Op → Frame
  | .sendPacket data _ _ =>
    match t with
    | .qizmo => .qizmo data
    | .websocketU => .ws .textframe data none
    | .websocketB => .ws .binaryframe data none
  | .splurge packettype data _ => .ws packettype data none

/-- What the calls say that they sent. -/
def sentOf : TcpStream.Stream → List Op → List (Frame × List QByte)
  | _, [] => []
  | st, op :: ops =>
    match st.exec op with
    | some (e, st') =>
      (if e = .sent then [(frameOf st.clienttype op, op.frame st.clienttype)] else []) ++ sentOf st' ops
    | none => []

theorem ws_wire (h : (wsFrame packettype data).length < TcpStream.maxOverallmsglen - 1) :
    (Frame.ws packettype data none).wire = some (wsFrame packettype data) := by
  have hlen := congrArg length (wsFrame_eq packettype data)
  rw [length_append, length_append, length_longLen] at hlen
  simp only [length_cons, length_nil] at hlen
  have hsmall : 6 + (payload packettype data).length ≤ TcpStream.maxOverallmsglen := by
    rw [TcpStream.maxOverallmsglen] at h ⊢
    split_ifs at hlen <;> omega
  have hroom : (connected .websocketB).outbuffer.length + (wsFrame packettype data).length ≤
      TcpStream.maxOverallmsglen := by
    rw [connected, length_nil]
    omega
  rw [TcpStream.maxOverallmsglen] at hsmall
  rw [Frame.wire, TcpStream.Stream.splurge_eq _ 0 rfl (by omega), if_neg (by rw [TcpStream.maxOverallmsglen]; omega),
    if_neg (by rw [connected, length_nil, TcpStream.maxOverallmsglen]; omega), TcpStream.Stream.append, if_pos hroom]
  exact congrArg some (congrArg _ (flush_zero _))

theorem frameOf_wire (h : (frameOf t op).Sendable rt (op.frame t)) :
    (frameOf t op).wire = some (op.frame t) := by
  cases op with
  | sendPacket data =>
    cases t with
    | qizmo => exact qizmo_wire (by have := h.2.2; omega)
    | websocketU => exact ws_wire h.2.1
    | websocketB => exact ws_wire h.2.1
  | splurge packettype data => exact ws_wire h.2.1

theorem sentOf_spec (hin : ∀ op ∈ ops, op.InRange) (hfits : st.outbuffer.length ≤ TcpStream.maxOverallmsglen)
    (hok : st.RunOk ops) (hrun : st.run ops = some (frames, st')) :
    st'.total = st.total ++ (sentOf st ops).flatMap Prod.snd ∧
      ∀ p ∈ sentOf st ops, ∃ op ∈ ops, p = (frameOf st.clienttype op, op.frame st.clienttype) := by
  induction ops generalizing st frames with
  | nil =>
    cases hrun
    exact ⟨(append_nil _).symm, nofun⟩
  | cons op ops ih =>
    obtain ⟨e, st₁, frames', hexec, hrun', -⟩ := TcpStream.Stream.run_cons.1 hrun
    obtain ⟨e₂, st₂, h₂, hadds⟩ := TcpStream.Stream.exec_frames (hin op (.head _)) hfits hok.1
    cases hexec.symm.trans h₂
    obtain ⟨htotal, hmem⟩ := ih (fun op hop => hin op (.tail _ hop)) hadds.fits (hok.2 _ _ hexec) hrun'
    rw [hadds.clienttype] at hmem
    rw [sentOf, hexec]
    refine ⟨?_, forall_mem_append.2 ⟨fun p hp => ?_, fun p hp => ?_⟩⟩
    · rw [htotal, hadds.total, append_assoc, flatMap_append]
      congr 2
      split <;> simp
    · split at hp
      · exact ⟨op, .head _, mem_singleton.1 hp⟩
      · cases hp
    · obtain ⟨op', hop', rfl⟩ := hmem p hp
      exact ⟨op', .tail _ hop', rfl⟩

/-- **From end to end.** What the calls of a sender say that they sent is what a reader passes on, in order and
once, however it was written and is read, when no packet finds another one waiting and all was written. -/
theorem receive_sent (ice : Ice) (hin : ∀ op ∈ ops, op.InRange) (hok : (connected t).RunOk ops)
    (hsend : ∀ op ∈ ops, (frameOf t op).Sendable rt (op.frame t))
    (hrun : (connected t).run ops = some (frames, st)) (hall : st.outbuffer = []) {calls : List Call}
    (hcalls : calls ≠ []) : ∃ err c, receive ice (start rt st.written) calls = some (err, c) ∧
      Ends (sentOf (connected t) ops) (start rt st.written) err c ∧
      (err = none → c.pending = [] → c.delivered = (sentOf (connected t) ops).filterMap fun p => p.1.packet) := by
  obtain ⟨htotal, hmem⟩ := sentOf_spec hin (Nat.zero_le _) hok hrun
  have hsent : AllSent rt (sentOf (connected t) ops) := by
    intro p hp
    obtain ⟨op, hop, rfl⟩ := hmem p hp
    exact ⟨frameOf_wire (hsend op hop), hsend op hop⟩
  have hstream : (start rt st.written).inbuffer ++ (start rt st.written).pending =
      (sentOf (connected t) ops).flatMap Prod.snd := by
    rwa [TcpStream.Stream.total, hall, append_nil] at htotal
  have hfits : (start rt st.written).Fits := ⟨Nat.zero_lt_succ _, Nat.zero_le _⟩
  obtain ⟨err, c, hreceive, hends⟩ := @receive_frames ice _ _ hfits hsent hstream _ hcalls
  refine ⟨err, c, hreceive, hends, fun herr hpending => ?_⟩
  obtain ⟨done, rest, hsplit, hdelivered, ⟨-, -, -, hrest, hmore⟩ | ⟨herr', -⟩⟩ := hends
  · cases rest with
    | nil => rw [hdelivered, hsplit, append_nil]; rfl
    | cons p rest =>
      have hlt := hmore p rfl
      rw [hpending, append_nil] at hrest
      rw [hrest, flatMap_cons, length_append] at hlt
      omega
  · exact absurd (herr.symm.trans herr') (by simp)

/-- A packet that is written in two parts and read in two. -/
theorem receive_sent_seven : ∃ err c,
    receive noIce (start .websocketB [0x82, 1, 7]) [⟨[1, 2], [], ⟨connected .qizmo, by decide⟩⟩] =
      some (err, c) ∧ (err = none → c.pending = [] → c.delivered = [[7]]) := by
  obtain ⟨err, c, hrun, -, hall⟩ := @receive_sent .websocketB .websocketB [.sendPacket [7] 2 1] _ _ noIce
    (by simp [Op.InRange]) ⟨⟨rfl, nofun⟩, fun _ _ _ => trivial⟩
    (forall_mem_singleton.2 ⟨.inr rfl, by decide, .inr (.inl ⟨rfl, by simp, by decide⟩)⟩) rfl rfl
    [⟨[1, 2], [], ⟨connected .qizmo, by decide⟩⟩] (by simp)
  exact ⟨err, c, hrun, hall⟩

end TcpReceive

end FteQuake
