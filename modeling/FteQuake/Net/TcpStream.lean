import FteQuake.Common.Sizebuf

/-!
# Packets over a stream

`FTENET_TCP_SendPacket` and `FTENET_TCP_WebSocket_Splurge` of `net_wins.c`, for a peer that is
connected through a qizmo stream or a websocket. A packet is framed into `outbuffer`, and as much of
`outbuffer` as the stream takes is written at once. What `VFS_WRITE` returns is a parameter of each
call; a result that is not positive is a write that took nothing.

`Op.frame` says what the frame of a packet is, from the rules of the two protocols. `total` is all
that the peer has been given or will be given; `total_exec` says what one call adds to it.
-/

namespace FteQuake

open List Option BitVec

namespace TcpStream

/-- `MAX_OVERALLMSGLEN`, the size of `outbuffer`. -/
def maxOverallmsglen : ℕ := 65536

/-- The values of `clienttype` that packets are sent to as they are. -/
inductive ClientType
  | qizmo
  | websocketU
  | websocketB
  deriving DecidableEq, Repr

/-- `neterr_t`, as far as it is returned here. -/
inductive NetErr
  | sent
  | mtu
  | clogged
  deriving DecidableEq, Repr

/-- `enum websocketpackettype_e`. -/
inductive WsPacketType
  | continuation
  | textframe
  | binaryframe
  | close
  | ping
  | pong
  deriving DecidableEq, Repr

/-- The numbers of the packet types. -/
def WsPacketType.code : WsPacketType → ℕ
  | continuation => 0
  | textframe => 1
  | binaryframe => 2
  | close => 8
  | ping => 9
  | pong => 10

/-- `ftenet_tcp_stream_t`: `outbuffer` up to `outlen`, and what `clientstream` has taken. -/
structure Stream where
  clienttype : ClientType
  outbuffer : List QByte
  written : List QByte
  deriving DecidableEq, Repr

/-- A stream whose handshake is over and out of the way. -/
def connected (clienttype : ClientType) : Stream := ⟨clienttype, [], []⟩

/-! ## The code -/

/-- A byte as `FTENET_TCP_WebSocket_Splurge` puts it into a text frame. -/
def utf8ify (c : QByte) : List QByte :=
  if c = 0 then [0xc0 ||| (0x100 >>> 6), 0x80 ||| (0x100 &&& 0x3f)]
  else if 0x80 ≤ c then [0xc0 ||| (c >>> 6), 0x80 ||| (c &&& 0x3f)]
  else [c]

/-- The bytes that `utf8ify` makes of a packet, counted in an `unsigned int`. -/
def textPaylen (data : List QByte) : BitVec 32 :=
  data.foldl (fun n c => n + if c = 0 ∨ 0x80 ≤ c then 2 else 1) 0

namespace Stream

variable (st : Stream)

/-- `VFS_WRITE` of the whole `outbuffer`, and the move of what is left to its start. -/
def flush (done : ℤ) : Stream :=
  { st with
    outbuffer := st.outbuffer.drop done.toNat
    written := st.written ++ st.outbuffer.take done.toNat }

/-- Bytes are stored from `outlen` on; `outbuffer` has no room for more than its size. -/
def append (bytes : List QByte) : Option Stream :=
  if st.outbuffer.length + bytes.length ≤ maxOverallmsglen then
    some { st with outbuffer := st.outbuffer ++ bytes }
  else none

/-- `FTENET_TCP_WebSocket_Splurge`. The sums of its two length checks are `unsigned int`. -/
def splurge (packettype : WsPacketType) (data : List QByte) (done : ℤ) :
    Option (NetErr × Stream) :=
  let type : BitVec 16 := 0x8000 ||| (BitVec.ofNat 16 packettype.code <<< 8)
  let text := (type >>> 8) &&& 0xf = 1
  let paylen := if text then textPaylen data else BitVec.ofNat 32 data.length
  let ctrl := type ||| if 126 ≤ paylen then 126 else paylen.setWidth 16
  if maxOverallmsglen < (6 + paylen).toNat then some (.mtu, st)
  else if maxOverallmsglen < (BitVec.ofNat 32 st.outbuffer.length + 6 + paylen).toNat then
    some (.clogged, st)
  else
    let size : List QByte :=
      if ctrl &&& 0x7f = 126 then [(paylen >>> 8).setWidth 8, (paylen &&& 0xff).setWidth 8] else []
    let bytes : List QByte := [(ctrl >>> 8).setWidth 8, (ctrl &&& 0xff).setWidth 8] ++ size ++
      if text then data.flatMap utf8ify else data
    (st.append bytes).map fun st => (.sent, if st.outbuffer ≠ [] then st.flush done else st)

/-- The `TCPC_QIZMO` case of `FTENET_TCP_SendPacket`. -/
def frameQizmo (data : List QByte) : Option (NetErr × Stream) :=
  let slen := BitVec.ofNat 16 data.length
  if 0xffff < data.length then some (.mtu, st)
  else if maxOverallmsglen < st.outbuffer.length + 2 + data.length then
    if maxOverallmsglen < data.length + 2 then some (.mtu, st) else some (.clogged, st)
  else
    (st.append ([(slen >>> 8).setWidth 8, slen.setWidth 8] ++ data)).map fun st => (.sent, st)

/-- The switch of `FTENET_TCP_SendPacket`; `done` is the result of the write in `splurge`. -/
def framePacket (data : List QByte) (done : ℤ) : Option (NetErr × Stream) :=
  match st.clienttype with
  | .qizmo => st.frameQizmo data
  | .websocketU => st.splurge .textframe data done
  | .websocketB => st.splurge .binaryframe data done

/-- `FTENET_TCP_SendPacket`, for the stream that the address belongs to. -/
def sendPacket (data : List QByte) (done₁ done₂ : ℤ) : Option (NetErr × Stream) := do
  let (e, st) ← if st.outbuffer = [] then st.framePacket data done₁ else some (.sent, st)
  if e ≠ .sent then some (e, st)
  else some (.sent, if st.outbuffer ≠ [] then st.flush done₂ else st)

end Stream

/-! ## Frames -/

/-- The UTF-8 form of a character below `U+0800`. -/
def utf8 (n : ℕ) : List QByte :=
  if n < 0x80 then [BitVec.ofNat 8 n]
  else [BitVec.ofNat 8 (0xc0 + n / 64), BitVec.ofNat 8 (0x80 + n % 64)]

/-- A packet as text: each byte is a character, and the byte `0` is `U+0100`. -/
def utf8Text (data : List QByte) : List QByte :=
  data.flatMap fun c => utf8 (if c = 0 then 0x100 else c.toNat)

/-- The payload of a websocket frame. -/
def payload : WsPacketType → List QByte → List QByte
  | .textframe, data => utf8Text data
  | _, data => data

/-- An unmasked websocket frame that is whole, of at most 65535 bytes: the type with the final bit,
the length in a byte or in two bytes behind 126, and the payload. -/
def wsFrame (packettype : WsPacketType) (data : List QByte) : List QByte :=
  let body := payload packettype data
  let size := if body.length < 126 then [BitVec.ofNat 8 body.length]
    else [126, BitVec.ofNat 8 (body.length / 256), BitVec.ofNat 8 (body.length % 256)]
  BitVec.ofNat 8 (0x80 + packettype.code) :: size ++ body

/-- A qizmo frame: the length, high byte first, and the packet. -/
def qizmoFrame (data : List QByte) : List QByte :=
  [BitVec.ofNat 8 (data.length / 256), BitVec.ofNat 8 (data.length % 256)] ++ data

/-- The frame of a packet. -/
def ClientType.frame : ClientType → List QByte → List QByte
  | qizmo => qizmoFrame
  | websocketU => wsFrame .textframe
  | websocketB => wsFrame .binaryframe

/-! ## Runs -/

/-- A call, with the results of its writes. -/
inductive Op
  | sendPacket (data : List QByte) (done₁ done₂ : ℤ)
  | splurge (packettype : WsPacketType) (data : List QByte) (done : ℤ)

namespace Op

/-- The length is an `int` or an `unsigned int`, and text frames come from `FTENET_TCP_SendPacket`
only. -/
def InRange : Op → Prop
  | sendPacket data _ _ => data.length < 2 ^ 31
  | splurge packettype data _ => packettype ≠ .textframe ∧ data.length < 2 ^ 32

/-- The frame that belongs to a call. -/
def frame (clienttype : ClientType) : Op → List QByte
  | sendPacket data _ _ => clienttype.frame data
  | splurge packettype data _ => wsFrame packettype data

end Op

namespace Stream

variable (st : Stream)

def exec : Op → Option (NetErr × Stream)
  | .sendPacket data done₁ done₂ => st.sendPacket data done₁ done₂
  | .splurge packettype data done => st.splurge packettype data done

/-- Calls in order, with the frames of those that returned `NETERR_SENT`. -/
def run : Stream → List Op → Option (List QByte × Stream)
  | st, [] => some ([], st)
  | st, op :: ops => do
    let (e, st') ← st.exec op
    let (frames, st'') ← run st' ops
    some ((if e = .sent then op.frame st.clienttype else []) ++ frames, st'')

/-- What has been written and what still waits. -/
def total : List QByte := st.written ++ st.outbuffer

/-- The calls add the frames of the packets that were sent, in order, and nothing else. -/
def LosesNothing (ops : List Op) : Prop :=
  ∃ frames st', st.run ops = some (frames, st') ∧ st'.total = st.total ++ frames

/-- The length checks pass because their sums wrap. -/
def Wraps (n : ℕ) : Prop :=
  2 ^ 32 ≤ 6 + n ∧ st.outbuffer.length + 6 + n ≤ 2 ^ 32 + maxOverallmsglen

/-- A packet finds nothing waiting, and no length check wraps. -/
def StepOk : Op → Prop
  | .sendPacket data _ _ =>
    st.outbuffer = [] ∧ (st.clienttype = .websocketU → ¬ st.Wraps (utf8Text data).length)
  | .splurge _ data _ => ¬ st.Wraps data.length

/-- Every call of a run meets `StepOk`. -/
def RunOk : Stream → List Op → Prop
  | _, [] => True
  | st, op :: ops => st.StepOk op ∧ ∀ e st', st.exec op = some (e, st') → RunOk st' ops

end Stream

/-! ## Bytes of a frame -/

theorem utf8ify_eq (c : QByte) : utf8ify c = utf8 (if c = 0 then 0x100 else c.toNat) := by
  revert c
  decide +kernel

theorem utf8Text_eq (data : List QByte) : data.flatMap utf8ify = utf8Text data :=
  flatMap_congr fun c _ => utf8ify_eq c

theorem utf8_length (n : ℕ) : (utf8 n).length = if n < 0x80 then 1 else 2 := by
  unfold utf8
  split <;> rfl

theorem utf8_length_byte (c : QByte) :
    (utf8 (if c = 0 then 0x100 else c.toNat)).length = if c = 0 ∨ 0x80 ≤ c then 2 else 1 := by
  rw [utf8_length]
  by_cases hc : c = 0
  · simp [hc]
  · have h : (0x80 : QByte) ≤ c ↔ ¬ c.toNat < 0x80 := by simp [le_def]
    simp only [hc, if_false, false_or, h]
    split <;> simp_all

theorem utf8Text_length_le (data : List QByte) :
    (utf8Text data).length ≤ 2 * data.length := by
  induction data with
  | nil => simp [utf8Text]
  | cons c data ih =>
    have hc := utf8_length_byte c
    rw [show utf8Text (c :: data) = utf8 (if c = 0 then 0x100 else c.toNat) ++ utf8Text data from rfl,
      length_append, length_cons, hc]
    split <;> omega

theorem textPaylen_eq (data : List QByte) :
    textPaylen data = BitVec.ofNat 32 (utf8Text data).length := by
  have key (n : ℕ) : data.foldl (fun n c => n + if c = 0 ∨ 0x80 ≤ c then 2 else 1)
      (BitVec.ofNat 32 n) = BitVec.ofNat 32 (n + (utf8Text data).length) := by
    induction data generalizing n with
    | nil => rfl
    | cons c data ih =>
      have hc : BitVec.ofNat 32 n + (if c = 0 ∨ 0x80 ≤ c then 2 else 1) =
          BitVec.ofNat 32 (n + (utf8 (if c = 0 then 0x100 else c.toNat)).length) := by
        rw [utf8_length_byte, ofNat_add]
        split <;> rfl
      rw [foldl_cons, hc, ih, Nat.add_assoc, ← length_append]
      rfl
  simpa [textPaylen] using key 0

/-- The two bytes of `ctrl`. -/
theorem hi_byte (a b : QByte) :
    ((a.setWidth 16 <<< 8 ||| b.setWidth 16) >>> 8).setWidth 8 = a := by
  ext i hi
  have h₁ : i < 16 := by omega
  have h₂ : 8 + i < 16 := by omega
  simp [h₁, h₂, getLsbD_eq_getElem hi]

theorem lo_byte (a b : QByte) :
    ((a.setWidth 16 <<< 8 ||| b.setWidth 16) &&& 0xff).setWidth 8 = b := by
  ext i hi
  have hm : (255#8)[i] = true := by
    rw [show 255#8 = BitVec.allOnes 8 from rfl, getElem_allOnes]
  simp [hm]

theorem type_eq (packettype : WsPacketType) :
    (0x8000 ||| BitVec.ofNat 16 packettype.code <<< 8 : BitVec 16) =
      (BitVec.ofNat 8 (0x80 + packettype.code)).setWidth 16 <<< 8 := by
  cases packettype <;> rfl

theorem text_iff (packettype : WsPacketType) :
    ((0x8000 ||| BitVec.ofNat 16 packettype.code <<< 8 : BitVec 16) >>> 8) &&& 0xf = 1 ↔
      packettype = .textframe := by
  cases packettype <;> decide

/-- What `ctrl` holds of the length, and whether the length follows in two bytes. -/
theorem size_eq {n : ℕ} (hn : n < 2 ^ 32) :
    (if (126 : BitVec 32) ≤ BitVec.ofNat 32 n then 126
      else (BitVec.ofNat 32 n).setWidth 16 : BitVec 16) =
      (if n < 126 then BitVec.ofNat 8 n else 126 : QByte).setWidth 16 := by
  have h : (126 : BitVec 32) ≤ BitVec.ofNat 32 n ↔ ¬ n < 126 := by
    rw [le_def, toNat_ofNat, Nat.mod_eq_of_lt hn]
    simp
  simp only [h, ite_not]
  split
  · apply eq_of_toNat_eq
    simp
    omega
  · rfl

theorem longSize_iff (a : QByte) {b : QByte} (hb : b.toNat < 128) :
    (a.setWidth 16 <<< 8 ||| b.setWidth 16) &&& 0x7f = 126 ↔ b = 126 := by
  have hlow : ((a.setWidth 16 <<< 8 ||| b.setWidth 16) &&& 0x7f : BitVec 16) = (b &&& 0x7f).setWidth 16 := by
    ext i hi
    by_cases h8 : i < 8
    · simp [h8]
    · have hm : (127#16)[i] = false := by
        rw [show 127#16 = (127#8).setWidth 16 from rfl, getElem_setWidth]
        exact getLsbD_of_ge (127#8) i (by omega)
      have hr : BitVec.getLsbD b i = false := getLsbD_of_ge b i (by omega)
      simp [h8, hm, hr]
  have hb' : b &&& 0x7f = b := by
    apply eq_of_toNat_eq
    rw [toNat_and]
    exact (Nat.and_two_pow_sub_one_eq_mod _ 7).trans (Nat.mod_eq_of_lt hb)
  rw [hlow, hb']
  constructor
  · intro h
    apply eq_of_toNat_eq
    have hn := congrArg BitVec.toNat h
    rw [toNat_setWidth, Nat.mod_eq_of_lt (by omega)] at hn
    exact hn
  · rintro rfl
    rfl

theorem sizeBytes_eq {n : ℕ} (hn : n < 2 ^ 32) :
    ((if (if n < 126 then BitVec.ofNat 8 n else 126 : QByte) = 126 then
      [(BitVec.ofNat 32 n >>> 8).setWidth 8, (BitVec.ofNat 32 n &&& 0xff).setWidth 8]
      else []) : List QByte) =
      if n < 126 then [] else [BitVec.ofNat 8 (n / 256), BitVec.ofNat 8 (n % 256)] := by
  by_cases h : n < 126
  · have hne : (BitVec.ofNat 8 n : QByte) ≠ 126 := by
      intro he
      have hnat := congrArg BitVec.toNat he
      rw [toNat_ofNat, Nat.mod_eq_of_lt (by omega)] at hnat
      have h126 : (126 : QByte).toNat = 126 := rfl
      omega
    rw [if_pos h, if_neg hne, if_pos h]
  · rw [if_neg h, if_pos rfl, if_neg h]
    congr 1
    · apply eq_of_toNat_eq
      simp [Nat.shiftRight_eq_div_pow]
      omega
    · congr 1
      apply eq_of_toNat_eq
      rw [toNat_setWidth, toNat_and, toNat_ofNat, toNat_ofNat, Nat.mod_eq_of_lt hn]
      exact congrArg (· % 2 ^ 8) (Nat.and_two_pow_sub_one_eq_mod n 8)

theorem paylen_eq (packettype : WsPacketType) (data : List QByte) :
    (if packettype = .textframe then textPaylen data else BitVec.ofNat 32 data.length) =
      BitVec.ofNat 32 (payload packettype data).length := by
  split
  · next h => rw [h, textPaylen_eq, payload]
  · cases packettype <;> first | rfl | contradiction

theorem body_eq (packettype : WsPacketType) (data : List QByte) :
    (if packettype = .textframe then data.flatMap utf8ify else data) =
      payload packettype data := by
  split
  · next h => rw [h, utf8Text_eq, payload]
  · cases packettype <;> first | rfl | contradiction

namespace Stream

variable (st : Stream)

variable {ops : List Op} {data : List QByte} {op : Op} {packettype : WsPacketType}

/-- `splurge` with the sums as numbers and the bytes as a frame. -/
theorem splurge_eq {n : ℕ} (done : ℤ) (hlen : (payload packettype data).length = n) (hn : n < 2 ^ 32) :
    st.splurge packettype data done =
      if maxOverallmsglen < (6 + n) % 2 ^ 32 then some (.mtu, st)
      else if maxOverallmsglen < (st.outbuffer.length + 6 + n) % 2 ^ 32 then some (.clogged, st)
      else (st.append (wsFrame packettype data)).map fun st =>
        (.sent, if st.outbuffer ≠ [] then st.flush done else st) := by
  have hsum₁ : (6 + BitVec.ofNat 32 n).toNat = (6 + n) % 2 ^ 32 := by simp
  have hsum₂ : (BitVec.ofNat 32 st.outbuffer.length + 6 + BitVec.ofNat 32 n).toNat =
      (st.outbuffer.length + 6 + n) % 2 ^ 32 := by simp
  have hb : (if n < 126 then BitVec.ofNat 8 n else 126 : QByte).toNat < 128 := by
    split
    · rw [toNat_ofNat]
      omega
    · decide
  have hframe : wsFrame packettype data =
      [BitVec.ofNat 8 (0x80 + packettype.code), if n < 126 then BitVec.ofNat 8 n else 126] ++
        (if n < 126 then [] else [BitVec.ofNat 8 (n / 256), BitVec.ofNat 8 (n % 256)]) ++
        payload packettype data := by
    simp only [wsFrame, hlen]
    split <;> rfl
  simp only [splurge, text_iff, paylen_eq, body_eq, hlen, hsum₁, hsum₂]
  simp only [type_eq, size_eq hn, hi_byte, lo_byte, longSize_iff _ hb, sizeBytes_eq hn, ← hframe]

/-! ## One call -/

variable (done : ℤ)

@[simp] theorem flush_total : (st.flush done).total = st.total := by
  simp [flush, total]

theorem flush_outlen_le : (st.flush done).outbuffer.length ≤ st.outbuffer.length := by
  simp [flush]

/-- What a call does: the type stays, `outbuffer` stays within its size, and `bytes` are added. -/
structure Adds (st : Stream) (bytes : List QByte) (st' : Stream) : Prop where
  clienttype : st'.clienttype = st.clienttype
  total : st'.total = st.total ++ bytes
  fits : st'.outbuffer.length ≤ maxOverallmsglen

variable {st} {st' : Stream} {bytes : List QByte}

/-- The write that ends a call changes nothing of this. -/
theorem Adds.flush (h : st.Adds bytes st') (done : ℤ) :
    st.Adds bytes (if st'.outbuffer ≠ [] then st'.flush done else st') := by
  split
  · exact ⟨h.clienttype, by rw [flush_total, h.total],
      (flush_outlen_le st' done).trans h.fits⟩
  · exact h

theorem Adds.rfl (h : st.outbuffer.length ≤ maxOverallmsglen) : st.Adds [] st :=
  ⟨Eq.refl _, by simp, h⟩

theorem append_adds (h : st.outbuffer.length + bytes.length ≤ maxOverallmsglen) :
    ∃ st', st.append bytes = some st' ∧ st.Adds bytes st' :=
  ⟨_, if_pos h, Eq.refl _, by simp [total], by simpa using h⟩

theorem wsFrame_length (packettype : WsPacketType) (data : List QByte) :
    (payload packettype data).length < (wsFrame packettype data).length ∧
      (wsFrame packettype data).length ≤ 4 + (payload packettype data).length := by
  simp only [wsFrame]
  split <;> simp <;> omega

/-- A call that frames a packet either says that it was sent and adds the frame, or does nothing. -/
def Frames (st : Stream) (frame : List QByte) (r : Option (NetErr × Stream)) : Prop :=
  ∃ e st', r = some (e, st') ∧ st.Adds (if e = .sent then frame else []) st'

theorem splurge_frames (hfits : st.outbuffer.length ≤ maxOverallmsglen) (hn : (payload packettype data).length < 2 ^ 32)
    (hwrap : ¬ st.Wraps (payload packettype data).length) :
    st.Frames (wsFrame packettype data) (st.splurge packettype data done) := by
  rw [splurge_eq st done (Eq.refl _) hn]
  split
  · exact ⟨_, _, Eq.refl _, .rfl hfits⟩
  split
  · exact ⟨_, _, Eq.refl _, .rfl hfits⟩
  next h₁ h₂ =>
  have hroom : st.outbuffer.length + (wsFrame packettype data).length ≤ maxOverallmsglen := by
    have := (wsFrame_length packettype data).2
    simp only [Wraps, maxOverallmsglen] at *
    omega
  obtain ⟨st', hst', hadds⟩ := append_adds hroom
  exact ⟨_, _, congrArg _ hst', hadds.flush done⟩

theorem splurge_wraps (hn : (payload packettype data).length < 2 ^ 32)
    (hwrap : st.Wraps (payload packettype data).length) :
    st.splurge packettype data done = none := by
  rw [splurge_eq st done (Eq.refl _) hn]
  have hbig : ¬ st.outbuffer.length + (wsFrame packettype data).length ≤ maxOverallmsglen := by
    have := (wsFrame_length packettype data).1
    simp only [Wraps, maxOverallmsglen] at *
    omega
  simp only [Wraps, maxOverallmsglen] at hwrap
  rw [if_neg (by simp only [maxOverallmsglen]; omega),
    if_neg (by simp only [maxOverallmsglen]; omega), append, if_neg hbig]
  exact Eq.refl _

/-- The bytes that `frameQizmo` stores. -/
theorem qizmoFrame_eq (h : ¬0xffff < data.length) :
    ([(BitVec.ofNat 16 data.length >>> 8).setWidth 8, (BitVec.ofNat 16 data.length).setWidth 8] ++
      data : List QByte) = qizmoFrame data := by
  rw [qizmoFrame]
  congr 1
  congr 1
  · apply eq_of_toNat_eq
    simp [Nat.shiftRight_eq_div_pow]
    omega
  · congr 1
    apply eq_of_toNat_eq
    simp

theorem frameQizmo_frames (data : List QByte) (hfits : st.outbuffer.length ≤ maxOverallmsglen) :
    st.Frames (qizmoFrame data) (st.frameQizmo data) := by
  rw [frameQizmo]
  split
  · exact ⟨_, _, Eq.refl _, .rfl hfits⟩
  next hlong =>
  split
  · split
    · exact ⟨_, _, Eq.refl _, .rfl hfits⟩
    · exact ⟨_, _, Eq.refl _, .rfl hfits⟩
  next hroom =>
  have hlen : st.outbuffer.length + (qizmoFrame data).length ≤ maxOverallmsglen := by
    simp only [qizmoFrame, length_append, length_cons, length_nil] at *
    omega
  obtain ⟨st', hst', hadds⟩ := append_adds hlen
  rw [qizmoFrame_eq hlong]
  exact ⟨_, _, congrArg _ hst', hadds⟩

theorem utf8Text_lt (h : data.length < 2 ^ 31) :
    (utf8Text data).length < 2 ^ 32 := by
  have := utf8Text_length_le data
  omega

theorem framePacket_frames (hlen : data.length < 2 ^ 31) (hfits : st.outbuffer.length ≤ maxOverallmsglen)
    (hwrap : st.clienttype = .websocketU → ¬ st.Wraps (utf8Text data).length) :
    st.Frames (st.clienttype.frame data) (st.framePacket data done) := by
  rw [framePacket]
  cases htype : st.clienttype with
  | qizmo => exact frameQizmo_frames data hfits
  | websocketU => exact splurge_frames done hfits (utf8Text_lt hlen) (hwrap htype)
  | websocketB =>
    have hbin : data.length < 2 ^ 32 := by omega
    refine splurge_frames done hfits hbin ?_
    rintro ⟨hwrap, -⟩
    have : (payload .binaryframe data).length = data.length := Eq.refl _
    omega

theorem sendPacket_frames (done₁ done₂ : ℤ) (hlen : data.length < 2 ^ 31)
    (hfits : st.outbuffer.length ≤ maxOverallmsglen) (hok : st.StepOk (.sendPacket data done₁ done₂)) :
    st.Frames (st.clienttype.frame data) (st.sendPacket data done₁ done₂) := by
  obtain ⟨e, st', hst', hadds⟩ := framePacket_frames done₁ hlen hfits hok.2
  rw [sendPacket, if_pos hok.1, hst']
  by_cases he : e = .sent
  · exact ⟨_, _, if_neg (not_not.2 he), by simpa [he] using hadds.flush done₂⟩
  · exact ⟨_, _, if_pos he, hadds⟩

theorem exec_frames (hin : op.InRange) (hfits : st.outbuffer.length ≤ maxOverallmsglen) (hok : st.StepOk op) :
    st.Frames (op.frame st.clienttype) (st.exec op) := by
  cases op with
  | sendPacket data done₁ done₂ => exact sendPacket_frames done₁ done₂ hin hfits hok
  | splurge packettype data done =>
    have hbody : payload packettype data = data := by
      cases packettype <;> first | rfl | exact absurd (Eq.refl _) hin.1
    exact splurge_frames done hfits (by rw [hbody]; exact hin.2) (by rwa [hbody])

theorem frame_ne_nil (clienttype : ClientType) (op : Op) : op.frame clienttype ≠ [] := by
  cases op with
  | sendPacket => cases clienttype <;> simp [Op.frame, ClientType.frame, wsFrame, qizmoFrame]
  | splurge => simp [Op.frame, wsFrame]

/-- A call that is not `StepOk` stores outside `outbuffer`, or says that it sent what it dropped. -/
theorem exec_of_not_stepOk (hin : op.InRange) (hfits : st.outbuffer.length ≤ maxOverallmsglen) (hok : ¬ st.StepOk op) :
    st.exec op = none ∨ ∃ st', st.exec op = some (.sent, st') ∧ st.Adds [] st' := by
  cases op with
  | sendPacket data done₁ done₂ =>
    by_cases hout : st.outbuffer = []
    · left
      obtain ⟨htype, hwrap⟩ : st.clienttype = .websocketU ∧ st.Wraps (utf8Text data).length := by
        simpa [StepOk, hout] using hok
      have hnone : st.framePacket data done₁ = none := by
        rw [framePacket, htype]
        exact splurge_wraps done₁ (utf8Text_lt hin) hwrap
      rw [exec, sendPacket, if_pos hout, hnone]
      exact Eq.refl _
    · right
      rw [exec, sendPacket, if_neg hout]
      exact ⟨_, Eq.refl _, (Adds.rfl hfits).flush done₂⟩
  | splurge packettype data done =>
    have hbody : payload packettype data = data := by
      cases packettype <;> first | rfl | exact absurd (Eq.refl _) hin.1
    left
    exact splurge_wraps done (by rw [hbody]; exact hin.2) (by rw [hbody]; exact not_not.1 hok)

/-- Whatever the call, it does not add more than the frame it says it sent. -/
theorem exec_adds {e : NetErr} (hin : op.InRange)
    (hfits : st.outbuffer.length ≤ maxOverallmsglen) (h : st.exec op = some (e, st')) :
    ∃ bytes, st.Adds bytes st' ∧
      bytes.length ≤ (if e = .sent then op.frame st.clienttype else []).length := by
  by_cases hok : st.StepOk op
  · obtain ⟨e', st'', h', hadds⟩ := exec_frames hin hfits hok
    obtain ⟨rfl, rfl⟩ : e' = e ∧ st'' = st' := by simpa [h'] using h
    exact ⟨_, hadds, le_refl _⟩
  · rcases exec_of_not_stepOk hin hfits hok with h' | ⟨st'', h', hadds⟩
    · simp [h'] at h
    · obtain ⟨rfl, rfl⟩ : .sent = e ∧ st'' = st' := by simpa [h'] using h
      exact ⟨_, hadds, Nat.zero_le _⟩

/-! ## Runs of calls -/

theorem run_cons {frames : List QByte} {st'' : Stream} :
    st.run (op :: ops) = some (frames, st'') ↔ ∃ e st' frames', st.exec op = some (e, st') ∧
      st'.run ops = some (frames', st'') ∧
      frames = (if e = .sent then op.frame st.clienttype else []) ++ frames' := by
  constructor
  · intro h
    obtain ⟨⟨e, st'⟩, hexec, h⟩ := bind_eq_some_iff.1 h
    obtain ⟨⟨frames', st₂⟩, hrun, h⟩ := bind_eq_some_iff.1 h
    obtain ⟨rfl, rfl⟩ := Prod.mk.inj (some.inj h)
    exact ⟨e, st', frames', hexec, hrun, Eq.refl _⟩
  · rintro ⟨e, st', frames', hexec, hrun, rfl⟩
    simp [run, hexec, hrun]

theorem run_total_le {frames : List QByte} (hin : ∀ op ∈ ops, op.InRange)
    (hfits : st.outbuffer.length ≤ maxOverallmsglen) (h : st.run ops = some (frames, st')) :
    st'.total.length ≤ st.total.length + frames.length := by
  induction ops generalizing st frames with
  | nil =>
    obtain ⟨rfl, rfl⟩ := Prod.mk.inj (some.inj h)
    simp
  | cons op ops ih =>
    obtain ⟨e, st₁, frames', hexec, hrun, rfl⟩ := run_cons.1 h
    obtain ⟨bytes, hadds, hle⟩ := exec_adds (hin op (by simp)) hfits hexec
    have := ih (fun op hop => hin op (by simp [hop])) hadds.fits hrun
    rw [hadds.total, length_append] at this
    rw [length_append]
    omega

/-- A run loses nothing exactly if all its calls are `StepOk`. -/
theorem losesNothing_iff_runOk (hin : ∀ op ∈ ops, op.InRange)
    (hfits : st.outbuffer.length ≤ maxOverallmsglen) : st.LosesNothing ops ↔ st.RunOk ops := by
  induction ops generalizing st with
  | nil => simp [LosesNothing, RunOk, run]
  | cons op ops ih =>
    have hop : op.InRange := hin op (by simp)
    have hops : ∀ op ∈ ops, op.InRange := fun op h => hin op (by simp [h])
    constructor
    · rintro ⟨frames, st'', hrun, htotal⟩
      obtain ⟨e, st', frames', hexec, hrun', rfl⟩ := run_cons.1 hrun
      have hok : st.StepOk op := by
        by_contra hok
        rcases exec_of_not_stepOk hop hfits hok with hnone | ⟨st₁, hexec₁, hadds⟩
        · simp [hnone] at hexec
        obtain ⟨rfl, rfl⟩ : .sent = e ∧ st₁ = st' := by simpa [hexec₁] using hexec
        have hle := run_total_le hops hadds.fits hrun'
        have hpos := length_pos_of_ne_nil (frame_ne_nil st.clienttype op)
        simp only [htotal, hadds.total, length_append, length_nil, if_true] at hle
        omega
      refine ⟨hok, fun e₁ st₁ h₁ => ?_⟩
      obtain ⟨rfl, rfl⟩ : e = e₁ ∧ st' = st₁ := by simpa [hexec] using h₁
      obtain ⟨e₂, st₂, h₂, hadds⟩ := exec_frames hop hfits hok
      obtain ⟨rfl, rfl⟩ : e = e₂ ∧ st' = st₂ := by simpa [hexec] using h₂
      refine (ih hops hadds.fits).1 ⟨frames', st'', hrun', ?_⟩
      rw [htotal, hadds.total, List.append_assoc]
    · rintro ⟨hok, hnext⟩
      obtain ⟨e, st', hexec, hadds⟩ := exec_frames hop hfits hok
      obtain ⟨frames', st'', hrun, htotal⟩ := (ih hops hadds.fits).2 (hnext e st' hexec)
      exact ⟨_, st'', run_cons.2 ⟨e, st', frames', hexec, hrun, Eq.refl _⟩,
        by rw [htotal, hadds.total, List.append_assoc]⟩

end Stream

/-- From an idle stream, what is written and what waits are the frames of the packets that were said
to be sent, exactly if every packet found nothing waiting and no length check wrapped. -/
theorem sendPacket_losesNothing_iff (clienttype : ClientType) (ops : List Op)
    (hin : ∀ op ∈ ops, op.InRange) :
    (∃ frames st', (connected clienttype).run ops = some (frames, st') ∧
      st'.written ++ st'.outbuffer = frames) ↔ (connected clienttype).RunOk ops :=
  Stream.losesNothing_iff_runOk hin (Nat.zero_le _)

/-- Two packets of one byte, the second while the first waits. -/
theorem sendPacket_losesNothing_two : (∃ frames st',
    (connected .qizmo).run [.sendPacket [1] 0 3, .splurge .ping [] (-1), .sendPacket [2] 0 2] =
      some (frames, st') ∧ st'.written ++ st'.outbuffer = frames) ↔
    (connected .qizmo).RunOk
      [.sendPacket [1] 0 3, .splurge .ping [] (-1), .sendPacket [2] 0 2] :=
  sendPacket_losesNothing_iff .qizmo _ (by simp [Op.InRange])

/-- The second packet is gone though both were said to be sent. -/
theorem sendPacket_loses : ¬ ∀ clienttype ops, (∀ op ∈ ops, op.InRange) →
    ∃ frames st', (connected clienttype).run ops = some (frames, st') ∧
      st'.written ++ st'.outbuffer = frames := by
  intro h
  obtain ⟨frames, st', hrun, htotal⟩ :=
    h .qizmo [.sendPacket [1] 0 0, .sendPacket [2] 0 0] (by simp [Op.InRange])
  have hcode : (connected .qizmo).run [.sendPacket [1] 0 0, .sendPacket [2] 0 0] =
      some ([0, 1, 1, 0, 1, 2], ⟨.qizmo, [0, 1, 1], []⟩) := by decide
  obtain ⟨rfl, rfl⟩ := Prod.mk.inj (Option.some.inj (hcode.symm.trans hrun))
  exact absurd htotal (by decide)

end TcpStream

end FteQuake
