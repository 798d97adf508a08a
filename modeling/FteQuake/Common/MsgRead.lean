import FteQuake.Common.Sizebuf

/-!
# Message readers

The `MSG_Read*` functions of `common.c`. They work on the global cursor: `msg_readmsg` points at
the buffer being read, `msg_badread` is set by a read past its end, and `net_message` is the
buffer that received packets are put in (usually, but not always, the one being read).

Most readers follow one scheme (`msgReadScalar`): with a bit-packed buffer they go through
`MSG_ReadBits`; otherwise they check that enough bytes are left, decode them and move the cursor.
`msgReadScalar_takes` says what the scheme does on well-formed input, and the reader of each
scalar is the scheme at its own width and decoding.

The programs are over `Option`: `none` stands for `Sys_Error` and for a shift whose C behaviour is
undefined.
-/

namespace FteQuake

open StreamProgram Sizebuf

/-- What `msg_readmsg` points at: `net_message`, or a buffer of the caller's. -/
inductive MsgPtr
  | netMessage
  | other
  deriving DecidableEq, Repr

/-- The globals of the message readers. -/
structure MsgState where
  netMessage : Sizebuf
  other : Sizebuf
  readmsg : MsgPtr
  msgBadread : Bool

abbrev MsgReader := StateT MsgState Option

namespace MsgState

/-- `*msg_readmsg`. -/
def msgReadmsg (st : MsgState) : Sizebuf :=
  match st.readmsg with
  | .netMessage => st.netMessage
  | .other => st.other

/-- Assignment to `*msg_readmsg`. -/
def setReadmsg (st : MsgState) (buf : Sizebuf) : MsgState :=
  match st.readmsg with
  | .netMessage => { st with netMessage := buf }
  | .other => { st with other := buf }

variable (st : MsgState)

@[simp] theorem msgReadmsg_setReadmsg (buf : Sizebuf) :
    (st.setReadmsg buf).msgReadmsg = buf := by
  rcases st with ⟨_, _, _ | _, _⟩ <;> rfl

@[simp] theorem setReadmsg_setReadmsg (buf buf' : Sizebuf) :
    (st.setReadmsg buf).setReadmsg buf' = st.setReadmsg buf' := by
  rcases st with ⟨_, _, _ | _, _⟩ <;> rfl

@[simp] theorem setReadmsg_msgReadmsg : st.setReadmsg st.msgReadmsg = st := by
  rcases st with ⟨_, _, _ | _, _⟩ <;> rfl

@[simp] theorem msgBadread_setReadmsg (buf : Sizebuf) :
    (st.setReadmsg buf).msgBadread = st.msgBadread := by
  rcases st with ⟨_, _, _ | _, _⟩ <;> rfl

/-- The globals with a buffer put where `sb` points. -/
def setBuffer (st : MsgState) (sb : MsgPtr) (buf : Sizebuf) : MsgState :=
  ({ st with readmsg := sb }).setReadmsg buf

/-- Assignment to `msg_readmsg->currentbit`. -/
def setCurrentbit (st : MsgState) (bit : ℕ) : MsgState :=
  st.setReadmsg { st.msgReadmsg with currentbit := bit }

/-- Exactly the bytes `xs` are left to read, and no read has failed. -/
structure Ahead (st : MsgState) (xs : List QByte) : Prop where
  packing : st.msgReadmsg.packing = .rawBytes
  good : st.msgBadread = false
  cursor : ∃ k, st.msgReadmsg.currentbit = 8 * k ∧ k + xs.length = st.msgReadmsg.cursize ∧
    st.msgReadmsg.data.slice k xs.length = xs

/-- The cursor moved on by `n` bytes. -/
def skip (st : MsgState) (n : ℕ) : MsgState := st.setCurrentbit (st.msgReadmsg.currentbit + 8 * n)

@[simp] theorem msgReadmsg_skip (n : ℕ) : (st.skip n).msgReadmsg =
    { st.msgReadmsg with currentbit := st.msgReadmsg.currentbit + 8 * n } := by
  rw [skip, setCurrentbit, msgReadmsg_setReadmsg]

@[simp] theorem msgBadread_skip (n : ℕ) :
    (st.skip n).msgBadread = st.msgBadread := msgBadread_setReadmsg _ _

theorem Ahead.skip {st : MsgState} {xs ys : List QByte} (h : st.Ahead (xs ++ ys)) :
    (st.skip xs.length).Ahead ys := by
  obtain ⟨hp, hg, k, hk, hlen, hdata⟩ := h
  rw [List.length_append] at hlen hdata
  refine ⟨by simpa using hp, by simpa using hg, k + xs.length, ?_, ?_, ?_⟩
  · rw [msgReadmsg_skip]
    dsimp only
    omega
  · rw [msgReadmsg_skip]
    dsimp only
    omega
  · rw [msgReadmsg_skip]
    exact (Mem.slice_eq_append hdata).2

theorem skip_add (m n : ℕ) : st.skip (m + n) = (st.skip m).skip n := by
  simp [skip, setCurrentbit, Nat.mul_add, Nat.add_assoc]

/-- The globals as a place to read bytes from. -/
def source : Source MsgState QByte where
  ahead := Ahead
  skip := skip
  skip_zero st := setReadmsg_msgReadmsg st
  skip_add := skip_add
  ahead_skip h := h.skip

end MsgState

open MsgState

/-- `MSG_BeginReading`. -/
def msgBeginReading (sb : MsgPtr) (prim : Netprim) (st : MsgState) : MsgState :=
  let st := { st with readmsg := sb, msgBadread := false }
  st.setReadmsg { st.msgReadmsg with currentbit := 0, packing := .rawBytes, prim := prim }

/-- `MSG_GetReadCount`. -/
def msgGetReadCount (st : MsgState) : ℕ := st.msgReadmsg.currentbit >>> 3

theorem msgBeginReading_ahead (sb : MsgPtr) (prim : Netprim) (st : MsgState) :
    (msgBeginReading sb prim st).Ahead ({ st with readmsg := sb }).msgReadmsg.contents := by
  refine ⟨by simp [msgBeginReading], by simp [msgBeginReading], 0, by simp [msgBeginReading], ?_, ?_⟩
  · rcases st with ⟨_, _, _, _⟩
    cases sb <;> simp [msgBeginReading, setReadmsg, MsgState.msgReadmsg]
  · rcases st with ⟨_, _, _, _⟩
    cases sb <;> simp [msgBeginReading, setReadmsg, MsgState.msgReadmsg, Sizebuf.contents]

/-! ## Bits -/

/-- `MSG_ReadRawBytes`. -/
def msgReadRawBytes (bits : ℕ) (st : MsgState) : BitVec 32 × MsgState :=
  let msg := st.msgReadmsg
  let readcount := msg.currentbit >>> 3
  if readcount + (bits >>> 3) ≥ msg.cursize then
    (-1, { st.setCurrentbit (msg.currentbit + bits) with msgBadread := true })
  else if bits ≤ 8 then
    ((msg.data readcount).setWidth 32, st.setCurrentbit (msg.currentbit + 8))
  else if bits ≤ 16 then
    ((msg.data readcount).setWidth 32 + (msg.data (readcount + 1)).setWidth 32 <<< 8,
      st.setCurrentbit (msg.currentbit + 16))
  else if bits ≤ 32 then
    ((msg.data readcount).setWidth 32 + (msg.data (readcount + 1)).setWidth 32 <<< 8 +
        (msg.data (readcount + 2)).setWidth 32 <<< 16 +
        (msg.data (readcount + 3)).setWidth 32 <<< 24,
      st.setCurrentbit (msg.currentbit + 32))
  else (0, st)

/-- The loop of `MSG_ReadRawBits`: `n` bits remain, bit `i` of the result comes next. -/
def rawBitsLoop (data : Mem QByte) : (n i currentbit : ℕ) → (bitmask : BitVec 32) → BitVec 32
  | 0, _, _, bitmask => bitmask
  | n + 1, i, currentbit, bitmask =>
    let val := (data (currentbit >>> 3)).setWidth 32 >>> (currentbit &&& 7)
    rawBitsLoop data n (i + 1) (currentbit + 1) (bitmask ||| (val &&& 1) <<< i)

/-- `MSG_ReadRawBits`. -/
def msgReadRawBits (bits : ℕ) (st : MsgState) : BitVec 32 × MsgState :=
  let msg := st.msgReadmsg
  if msg.currentbit + bits > msg.cursize <<< 3 then
    (-1, { st.setCurrentbit (msg.cursize <<< 3) with msgBadread := true })
  else
    (rawBitsLoop msg.data bits 0 msg.currentbit 0, st.setCurrentbit (msg.currentbit + bits))

/-- `MSG_ReadBits`. Without `HUFFNETWORK`, as configured, Huffman packing is an error like bad
packing. -/
def msgReadBits (bits : Int) : MsgReader (BitVec 32) := fun st =>
  let n := bits.natAbs
  let extend (bitmask : BitVec 32) : BitVec 32 :=
    if bits < 0 ∧ bitmask.getLsbD (n - 1) then bitmask ||| ~~~(((1 : BitVec 32) <<< n) - 1) else bitmask
  match st.msgReadmsg.packing with
  | .bad | .huffman => none
  | .rawBytes => some ((msgReadRawBytes n st).map extend id)
  | .rawBits => some ((msgReadRawBits n st).map extend id)

/-- `MSG_ReadSkip`. -/
def msgReadSkip (bytes : Int) : MsgReader Unit := fun st =>
  let move (bytes : Int) (st : MsgState) : MsgState :=
    let bit : Int := st.msgReadmsg.currentbit + bytes * 8
    if bit < 0 then { st.setCurrentbit 0 with msgBadread := true }
    else if bit > st.msgReadmsg.cursize * 8 then
      { st.setCurrentbit (st.msgReadmsg.cursize * 8) with msgBadread := true }
    else st.setCurrentbit bit.toNat
  if st.msgReadmsg.packing ≠ .rawBytes then
    -- whole bytes, four at a time while more than four are left, through `MSG_ReadBits`
    let rec packed : ℕ → ℕ → MsgState → Option MsgState
      | 0, _, st => some st
      | n + 1, bytes, st =>
        if bytes > 4 then (msgReadBits 32 st).bind fun r => packed n (bytes - 4) r.2
        else if bytes > 0 then (msgReadBits 8 st).bind fun r => packed n (bytes - 1) r.2
        else some st
    (packed bytes.toNat bytes.toNat st).map fun st => ((), move (min bytes 0) st)
  else some ((), move bytes st)

/-! ## Scalars -/

/-- The scheme of the scalar readers: `packed` on a bit-packed buffer; `bad`, and `msg_badread`
set, when fewer than `n` bytes are left; otherwise the next `n` bytes, decoded. -/
def msgReadScalar {α : Type} (n : ℕ) (packed : MsgReader α) (bad : α) (decode : List QByte → α) :
    MsgReader α := fun st =>
  let msg := st.msgReadmsg
  if msg.packing ≠ .rawBytes then packed st
  else
    let readcount := msg.currentbit >>> 3
    if readcount + n > msg.cursize then some (bad, { st with msgBadread := true })
    else some (decode (msg.data.slice readcount n), st.setCurrentbit ((readcount + n) <<< 3))

/-- `MSG_ReadChar`. -/
def msgReadChar : MsgReader Int :=
  msgReadScalar 1 (BitVec.toInt <$> msgReadBits (-8)) (-1) fun bs => (bs.getD 0 0).toInt

/-- `MSG_ReadByte`. -/
def msgReadByte : MsgReader Int :=
  msgReadScalar 1 (BitVec.toInt <$> msgReadBits 8) (-1) fun bs => (bs.getD 0 0).toNat

/-- The two bytes of a short as `data[0] + (data[1]<<8)`. -/
def decodeShort (bs : List QByte) : BitVec 16 :=
  BitVec.ofNat 16 ((bs.getD 0 0).toNat + (bs.getD 1 0).toNat <<< 8)

/-- `MSG_ReadShort`. -/
def msgReadShort : MsgReader Int :=
  msgReadScalar 2 ((fun b => (b.setWidth 16).toInt) <$> msgReadBits 16) (-1) fun bs =>
    (decodeShort bs).toInt

/-- The four bytes of a long as `data[0] + (data[1]<<8) + (data[2]<<16) + (data[3]<<24)`. -/
def decodeLong (bs : List QByte) : BitVec 32 :=
  BitVec.ofNat 32 ((bs.getD 0 0).toNat + (bs.getD 1 0).toNat <<< 8 + (bs.getD 2 0).toNat <<< 16 +
    (bs.getD 3 0).toNat <<< 24)

/-- `MSG_ReadLong`. -/
def msgReadLong : MsgReader Int :=
  msgReadScalar 4 (BitVec.toInt <$> msgReadBits 32) (-1) fun bs => (decodeLong bs).toInt

/-- `MSG_ReadFloat`, returning the bit pattern; a failed read returns `-1.0f`. -/
def msgReadFloat : MsgReader (BitVec 32) :=
  msgReadScalar 4 (msgReadBits 32) 0xbf800000 decodeLong

/-- `MSG_ReadDouble`, returning the bit pattern; a failed read returns `-1.0`. It looks at
`net_message`, wherever the cursor is, assembles the low four bytes as an `int`, and leaves the
cursor where it was. -/
def msgReadDouble : MsgReader (BitVec 64) := fun st =>
  let readcount := st.msgReadmsg.currentbit >>> 3
  if readcount + 8 > st.netMessage.cursize then
    some (0xbff0000000000000, { st with msgBadread := true })
  else
    let d (i : ℕ) : QByte := st.netMessage.data (readcount + i)
    let low : BitVec 32 := (d 0).setWidth 32 <<< 0 ||| (d 1).setWidth 32 <<< 8 |||
      (d 2).setWidth 32 <<< 16 ||| (d 3).setWidth 32 <<< 24
    some (low.signExtend 64 ||| (d 4).setWidth 64 <<< 32 ||| (d 5).setWidth 64 <<< 40 |||
      (d 6).setWidth 64 <<< 48 ||| (d 7).setWidth 64 <<< 56, st)

/-- The loop of `MSG_ReadString`. Each round reads one byte, so the rounds are bounded by the
bytes left and two more, one to find the end and one to leave. -/
def msgReadStringLoop : (rounds : ℕ) → (string : List QByte) → MsgReader (List QByte)
  | 0, _ => failure
  | n + 1, string => do
    let c ← msgReadChar
    if (← get).msgBadread ∨ c = 0 then pure string
    else if string.length < 65536 - 1 then msgReadStringLoop n (string ++ [BitVec.ofInt 8 c])
    else do
      modify fun st => { st with msgBadread := true }
      msgReadStringLoop n string

/-- `MSG_ReadString`. -/
def msgReadString : MsgReader (List QByte) := do
  msgReadStringLoop ((← get).msgReadmsg.cursize + 2) []

/-- `MSG_ReadBigEntity`. -/
def msgReadBigEntity : MsgReader (BitVec 32) := do
  let num := BitVec.ofInt 32 (← msgReadShort)
  if num &&& 0x8000 ≠ 0 then
    let num := (num &&& 0x7fff) <<< 8
    return num ||| BitVec.ofInt 32 (← msgReadByte)
  else return num

/-! ## Variable-length integers -/

/-- `x << n` on `int`: undefined from 32 on, and wrapping below. -/
def intShl (x : BitVec 32) (n : ℕ) : Option (BitVec 32) := if n < 32 then some (x <<< n) else none

/-- The loop of `MSG_ReadULEB128`: `r |= (b&0x7f) << o`, an `int` widened to 64 bits. Each round
reads a byte or finds the end. -/
def msgReadULEB128Loop : (rounds : ℕ) → (r : BitVec 64) → (o : ℕ) → MsgReader (BitVec 64)
  | 0, _, _ => failure
  | n + 1, r, o => do
    if (← get).msgBadread then pure r
    else
      let b : QByte := BitVec.ofInt 8 (← msgReadByte)
      let g ← StateT.lift (intShl ((b &&& 0x7f).setWidth 32) o)
      let r := r ||| g.signExtend 64
      if b &&& 0x80 = 0 then pure r else msgReadULEB128Loop n r (o + 7)

/-- `MSG_ReadULEB128`. -/
def msgReadULEB128 : MsgReader (BitVec 64) := do
  msgReadULEB128Loop ((← get).msgReadmsg.cursize + 2) 0 0

/-- The decoding of the sign bit in `MSG_ReadSignedQEX` and `MSG_ReadInt64`. -/
def unfoldSign (c : BitVec 64) : BitVec 64 := if c &&& 1 ≠ 0 then -1#64 - (c >>> 1) else c >>> 1

/-- `MSG_ReadSignedQEX`. -/
def msgReadSignedQEX : MsgReader (BitVec 64) := do
  let c ← msgReadULEB128
  return unfoldSign c

/-- The loop of `MSG_ReadUInt64` that counts the leading ones of the first byte and takes them
off; `n` is the number of bits `l` can still be shifted by. -/
def uInt64CountLoop : (n : ℕ) → (l v : QByte) → (b : ℕ) → QByte × ℕ
  | 0, _, v, b => (v, b)
  | n + 1, l, v, b => if v &&& l ≠ 0 then uInt64CountLoop n (l >>> 1) (v - l) (b + 1) else (v, b)

/-- `while (b --> 0) r |= (quint64_t)MSG_ReadByte() << (b*8)`. -/
def uInt64ReadTail : (b : ℕ) → (r : BitVec 64) → MsgReader (BitVec 64)
  | 0, r => pure r
  | b + 1, r => do
    let v ← msgReadByte
    uInt64ReadTail b (r ||| BitVec.ofInt 64 v <<< (b * 8))

/-- `MSG_ReadUInt64`. The shift by 64, of zero when eight bytes follow, gives 0. -/
def msgReadUInt64 : MsgReader (BitVec 64) := do
  let v : QByte := BitVec.ofInt 8 (← msgReadByte)
  let (v, b) := uInt64CountLoop 8 0x80 v 0
  uInt64ReadTail b (v.setWidth 64 <<< (b * 8))

/-- `MSG_ReadInt64`. -/
def msgReadInt64 : MsgReader (BitVec 64) := do
  let c ← msgReadUInt64
  return unfoldSign c

/-! ## Reading well-formed input -/

variable {xs : List QByte} {w : MsgWriter Unit}

theorem Ahead.readcount {st : MsgState} {ys : List QByte} (h : st.Ahead (xs ++ ys)) :
    st.msgReadmsg.currentbit >>> 3 + xs.length ≤ st.msgReadmsg.cursize ∧
      st.msgReadmsg.data.slice (st.msgReadmsg.currentbit >>> 3) xs.length = xs ∧
      (st.msgReadmsg.currentbit >>> 3 + xs.length) <<< 3 =
        st.msgReadmsg.currentbit + 8 * xs.length := by
  obtain ⟨-, -, k, hk, hlen, hdata⟩ := h
  rw [List.length_append] at hlen hdata
  have hk' : st.msgReadmsg.currentbit >>> 3 = k := by
    rw [hk, Nat.shiftRight_eq_div_pow]
    omega
  rw [hk', hk, Nat.shiftLeft_eq]
  exact ⟨by omega, (Mem.slice_eq_append hdata).1, by ring⟩

/-- **The scheme of the scalar readers on well-formed input.** -/
theorem msgReadScalar_takes {α : Type} {n : ℕ} (packed : MsgReader α) (bad : α)
    (decode : List QByte → α) (hn : xs.length = n) :
    source.Takes (msgReadScalar n packed bad decode) xs (decode xs) := by
  subst hn
  intro st ys h
  obtain ⟨hle, hdata, hbit⟩ := Ahead.readcount h
  show msgReadScalar xs.length packed bad decode st = _
  rw [msgReadScalar, if_neg (not_not.2 (Ahead.packing h)), if_neg (by omega), hdata, hbit]
  rfl

theorem msgReadChar_takes (b : QByte) : source.Takes msgReadChar [b] b.toInt :=
  msgReadScalar_takes _ _ _ rfl

theorem msgReadByte_takes (b : QByte) : source.Takes msgReadByte [b] b.toNat :=
  msgReadScalar_takes _ _ _ rfl

theorem msgReadShort_takes (b₀ b₁ : QByte) :
    source.Takes msgReadShort [b₀, b₁] (decodeShort [b₀, b₁]).toInt :=
  msgReadScalar_takes _ _ _ rfl

theorem msgReadLong_takes (b₀ b₁ b₂ b₃ : QByte) :
    source.Takes msgReadLong [b₀, b₁, b₂, b₃] (decodeLong [b₀, b₁, b₂, b₃]).toInt :=
  msgReadScalar_takes _ _ _ rfl

theorem msgReadFloat_takes (b₀ b₁ b₂ b₃ : QByte) :
    source.Takes msgReadFloat [b₀, b₁, b₂, b₃] (decodeLong [b₀, b₁, b₂, b₃]) :=
  msgReadScalar_takes _ _ _ rfl

/-! ## Writers and readers -/

/-- A state with `xs` to read. -/
theorem exists_ahead (xs : List QByte) : ∃ st : MsgState, st.Ahead xs := by
  refine ⟨⟨bufferOf xs 0, bufferOf [] 0, .netMessage, false⟩, rfl, rfl, 0, rfl, ?_, ?_⟩
  · exact Nat.zero_add _
  · exact Mem.slice_blit_self _ 0 xs

/-- A reader returns the same value on every text that starts alike. -/
theorem takes_of_prefix {α : Type} {r : MsgReader α} {ys : List QByte} {a b : α}
    (h : source.Takes r xs a) (h' : source.Takes r ys b) (hp : xs <+: ys) : a = b := by
  obtain ⟨zs, rfl⟩ := hp
  obtain ⟨st, hst⟩ := exists_ahead (xs ++ zs ++ [])
  have e := h' st [] hst
  rw [List.append_assoc] at hst
  rw [h st _ hst] at e
  exact (Prod.mk.inj (Option.some.inj e)).1

/-- **A writer and a reader agree on a value**: the writer appends some bytes, wherever they fit,
and the reader, wherever it meets these bytes, takes exactly them and returns the value. -/
def RoundTrip {α : Type} (w : MsgWriter Unit) (r : MsgReader α) (a : α) : Prop :=
  ∃ xs, sink.Emits w xs () ∧ source.Takes r xs a

/-- For a writer known to emit `xs`, the round trip is about the reader alone. -/
theorem roundTrip_iff {α : Type} {r : MsgReader α} {a : α}
    (h : sink.Emits w xs ()) : RoundTrip w r a ↔ source.Takes r xs a :=
  ⟨fun ⟨ys, hw, hr⟩ => by rwa [emits_unique h hw], fun hr => ⟨xs, h, hr⟩⟩

theorem RoundTrip.unique {α : Type} {r : MsgReader α} {a b : α}
    (h : RoundTrip w r a) (h' : RoundTrip w r b) : a = b := by
  obtain ⟨xs, hw, hr⟩ := h
  exact takes_of_prefix hr ((roundTrip_iff hw).1 h') (List.prefix_refl xs)

theorem RoundTrip.pure {α : Type} (a : α) : RoundTrip (pure ()) (pure a) a :=
  ⟨[], Sink.Emits.pure (), Source.Takes.pure a⟩

theorem RoundTrip.map {α β : Type} {r : MsgReader α} {a : α} (f : α → β)
    (h : RoundTrip w r a) : RoundTrip w (f <$> r) (f a) := by
  obtain ⟨xs, hw, hr⟩ := h
  exact ⟨xs, hw, hr.map f⟩

theorem RoundTrip.map_comp {α β γ : Type} {r : MsgReader α} {g : α → β} {b : β}
    (f : β → γ) (h : RoundTrip w (g <$> r) b) : RoundTrip w ((fun x => f (g x)) <$> r) (f b) := by
  have e := h.map f
  rwa [Functor.map_map] at e

/-- Writers and readers that agree piece by piece agree. -/
theorem RoundTrip.bind {α β : Type} {w' : MsgWriter Unit} {r : MsgReader α}
    {f : α → MsgReader β} {a : α} {b : β} (h : RoundTrip w r a) (h' : RoundTrip w' (f a) b) :
    RoundTrip (do w; w') (r >>= f) b := by
  obtain ⟨xs, hw, hr⟩ := h
  obtain ⟨ys, hw', hr'⟩ := h'
  exact ⟨xs ++ ys, hw.seq hw', hr.bind hr'⟩

/-- The last piece, and what the reader makes of it. -/
theorem RoundTrip.bind_return {α β : Type} {r : MsgReader α} {a : α}
    (f : α → β) (h : RoundTrip w r a) : RoundTrip w (do let x ← r; return f x) (f a) := by
  obtain ⟨xs, hw, hr⟩ := h
  refine ⟨xs, hw, ?_⟩
  rw [← List.append_nil xs]
  exact hr.bind (Source.Takes.pure (f a))

/-- A field that is sent under a condition, with a value for when it is not. -/
theorem RoundTrip.ite {α : Type} {p : Prop} [Decidable p] {r : MsgReader α} {a d : α} (h : p → RoundTrip w r a) :
    RoundTrip (if p then w else Pure.pure ()) (if p then r else Pure.pure d)
      (if p then a else d) := by
  by_cases hp : p
  · simpa only [if_pos hp] using h hp
  · simpa only [if_neg hp] using RoundTrip.pure d

/-- A field that is sent when it differs from what it was. -/
theorem RoundTrip.field {α : Type} {p : Prop} [Decidable p] {r : MsgReader α}
    {a d : α} (h : p → RoundTrip w r a) (hold : ¬p → d = a) :
    RoundTrip (if p then w else Pure.pure ()) (if p then r else Pure.pure d) a := by
  have e := RoundTrip.ite (d := d) h
  rwa [ite_eq_left_iff.2 hold] at e

/-- A list of items, one after the other. -/
theorem RoundTrip.list {ι α : Type} {w : ι → MsgWriter Unit} {r : ι → MsgReader α} {v : ι → α}
    (l : List ι) (h : ∀ i, RoundTrip (w i) (r i) (v i)) :
    RoundTrip (l.forM w) (l.mapM r) (l.map v) := by
  induction l with
  | nil =>
    rw [List.mapM_nil]
    exact RoundTrip.pure []
  | cons i l ih =>
    rw [List.mapM_cons, List.map_cons]
    exact (h i).bind (ih.bind_return fun xs => v i :: xs)

/-- A choice that both sides make alike. -/
theorem RoundTrip.cond {α : Type} {p : Prop} [Decidable p] {w' : MsgWriter Unit}
    {r r' : MsgReader α} {a : α} (h : p → RoundTrip w r a) (h' : ¬p → RoundTrip w' r' a) :
    RoundTrip (if p then w else w') (if p then r else r') a := by
  by_cases hp : p
  · rw [if_pos hp, if_pos hp]
    exact h hp
  · rw [if_neg hp, if_neg hp]
    exact h' hp

end FteQuake
