import FteQuake.Common.Huffman
import FteQuake.Common.MsgRead
import FteQuake.Common.MsgWrite
import Mathlib.Data.Rat.Defs

/-!
# The path MTU of a network channel

`Netchan_Setup`, `Netchan_Transmit` and `Netchan_Process` of `net_chan.c`, whole, less what they
count and print. A channel knows the size `mtuCur` of the packets it sends, between `mtuMin` and
`mtuMax`. It falls when `NET_SendPacket` refuses a packet and when nothing comes through, and it
grows when the other side acknowledges a packet of a larger size, by the sizes in `sentsizes`.

Sending keeps `mtuCur` between its limits (`netchanTransmit_keeps`). A confirmation puts it at the
size of the confirmed packet, which was below `mtuMax` when it was sent, and need not be any more
(`mtu_bounds`).
-/

namespace FteQuake

open Option (bind_eq_some_iff map_eq_some_iff)

/-! ## Channels -/

/-- `netadrtype_t`. -/
inductive Netadrtype
  | invalid | loopback | ip | ipv6 | ipx | unix | irc | websocket | ice
  deriving DecidableEq, Repr

/-- `netproto_t`. -/
inductive Netproto
  | dgram | dtls | kexlan | stream | tls | ws | wss | natpmp | rtcTcp | rtcTls | invalid
  deriving DecidableEq, Repr

/-- `netadr_t`: the kind of an address. -/
structure Netadr where
  type : Netadrtype
  prot : Netproto
  deriving DecidableEq, Repr

/-- `NET_AddrIsReliable`. -/
def netAddrIsReliable (adr : Netadr) : Bool :=
  match adr.prot with
  | .dgram | .dtls | .natpmp | .rtcTcp | .rtcTls | .invalid => false
  | .kexlan | .stream | .tls | .ws | .wss => true

/-- `neterr_t`. -/
inductive Neterr
  | sent | noroute | disconnected | mtu | clogged
  deriving DecidableEq, Repr

/-- `NCF_CLIENT`. -/
def ncfClient : BitVec 32 := 1 <<< 0

/-- `NCF_FRAGABLE`. -/
def ncfFragable : BitVec 32 := 1 <<< 1

/-- `NCF_STUNAWARE`. -/
def ncfStunaware : BitVec 32 := 1 <<< 2

/-- `PACKET_HEADER`. -/
def packetHeader : ℕ := 8

/-- `MAX_QWMSGLEN`. -/
def maxQwmsglen : ℕ := 1450

/-- `MAX_NQMSGLEN`. -/
def maxNqmsglen : ℕ := 65536

/-- `MAX_NQDATAGRAM`. -/
def maxNqdatagram : ℕ := 1024

/-- `ANTISTUNBIAS`. -/
def antistunbias : BitVec 32 := 0x40000000

/-- `LongSwap`, and `BigLong` on a host that stores the low byte first. -/
def longSwap (l : BitVec 32) : BitVec 32 :=
  l.extractLsb' 0 8 ++ l.extractLsb' 8 8 ++ l.extractLsb' 16 8 ++ l.extractLsb' 24 8

/-- `netchan_t`. -/
structure Netchan where
  fatalError : Bool
  isnqprotocol : Bool
  nqreliableAllowed : Bool
  nqreliableResendtime : ℚ
  nqunreliableonly : QByte
  flags : BitVec 32
  netprim : Netprim
  dupe : Int
  mtuCur : Int
  mtuMin : Int
  mtuMax : Int
  mtuResends : Int
  outgoingMtuProbe : BitVec 32
  mtuProbes : Int
  mtuReprobetime : ℚ
  sentsizes : ℕ → BitVec 16
  outgoingSequenceLast : BitVec 32
  remoteAddress : Netadr
  qport : Int
  qportsize : ℕ
  incomingUnreliable : BitVec 32
  incomingSequence : BitVec 32
  incomingAcknowledged : BitVec 32
  incomingReliableAcknowledged : BitVec 32
  incomingReliableSequence : BitVec 32
  outgoingUnreliable : BitVec 32
  outgoingSequence : BitVec 32
  reliableSequence : BitVec 32
  lastReliableSequence : BitVec 32
  message : Sizebuf
  reliableLength : ℕ
  reliableStart : ℕ
  reliableBuf : Mem QByte
  compresstable : Option Huffman
  inFragmentLength : ℕ
  inFragmentBuf : Mem QByte

namespace Netchan

/-- `chan->flags & NCF_CLIENT`. -/
def client (chan : Netchan) : Bool := chan.flags &&& ncfClient ≠ 0

/-- `chan->flags & NCF_FRAGABLE`. -/
def fragable (chan : Netchan) : Bool := chan.flags &&& ncfFragable ≠ 0

/-- `chan->flags & NCF_STUNAWARE`. -/
def stunaware (chan : Netchan) : Bool := chan.flags &&& ncfStunaware ≠ 0

end Netchan

/-- The minimum for the type of an address: nothing below what IPv6 needs. -/
def addressMtu (adr : Netadr) : ℕ :=
  let mtuMin :=
    match adr.type with
    | .ip => 508
    | .ipv6 => 1200
    | .ipx => 1450
    | .ice => 508
    | .loopback => 8192
    | _ => 1450
  if mtuMin < 1024 then 1200 else mtuMin

/-- `Netchan_Setup`. -/
def netchanSetup (realtime : ℚ) (flags : BitVec 32) (adr : Netadr) (qport : Int) (mtu : ℕ) : Netchan :=
  let qportsize := if adr.prot = .kexlan then 0 else 2
  let mtu := if mtu < 64 ∨ mtu > 0xffff then maxQwmsglen else mtu
  let mtu := max mtu 508
  let mtu := mtu - packetHeader
  let mtu := if flags &&& ncfClient ≠ 0 then mtu - qportsize else mtu
  let mtu := if flags &&& ncfFragable ≠ 0 then mtu - 2 else mtu
  let mtu :=
    if adr.type = .ice then mtu - (48 + 12)
    else if adr.prot = .dtls ∨ adr.prot = .tls then mtu - 48
    else mtu
  let maxsize :=
    if flags &&& ncfFragable ≠ 0 ∧ netAddrIsReliable adr then maxOverallmsglen else min mtu maxOverallmsglen
  { fatalError := false, isnqprotocol := false, nqreliableAllowed := true, nqreliableResendtime := 0
    nqunreliableonly := 0, flags, netprim := ⟨0, 0, 0⟩, dupe := 0
    mtuCur := mtu, mtuMin := min mtu (addressMtu adr), mtuMax := mtu
    mtuResends := 0, outgoingMtuProbe := 0, mtuProbes := 0, mtuReprobetime := realtime
    sentsizes := fun _ => 0, outgoingSequenceLast := 0, remoteAddress := adr, qport, qportsize
    incomingUnreliable := -1, incomingSequence := 0, incomingAcknowledged := 0
    incomingReliableAcknowledged := 0, incomingReliableSequence := 0, outgoingUnreliable := 0
    outgoingSequence := 1, reliableSequence := 0, lastReliableSequence := 0
    message :=
      { data := fun _ => 0, maxsize, cursize := 0, allowoverflow := true, overflowed := false
        packing := .bad, currentbit := 0, prim := ⟨0, 0, 0⟩ }
    reliableLength := 0, reliableStart := 0, reliableBuf := fun _ => 0, compresstable := none
    inFragmentLength := 0, inFragmentBuf := fun _ => 0 }

/-! ## Sending -/

/-- What a call of `Netchan_Transmit` meets: the time, `cls.demoplayback`, what `Netchan_CanBytes`
allows, what `NET_SendPacket` answers to the datagram of a reliable message alone and to the others
one after the other, and what lies on the stack. -/
structure SendEnv where
  realtime : ℚ
  demoplayback : Bool
  canBytes : Int
  reliable : Neterr
  sent : ℕ → Neterr
  junk : Mem QByte

/-- A `sizebuf_t` over `send_buf`. -/
def sendBuffer (env : SendEnv) (maxsize : ℕ) : Sizebuf :=
  { data := env.junk, maxsize, cursize := 0, allowoverflow := false, overflowed := false
    packing := .bad, currentbit := 0, prim := ⟨0, 0, 0⟩ }

/-- `for (i = -1; i < dupes && e == NETERR_SENT; i++) e = NET_SendPacket (...)`, where `count` is what
is left of `dupes + 1`: the last answer, and the number of calls. -/
def sendDupes (sent : ℕ → Neterr) : (count : ℕ) → (calls : ℕ) → (e : Neterr) → Neterr × ℕ
  | 0, calls, e => (e, calls)
  | count + 1, calls, e => if e = .sent then sendDupes sent count (calls + 1) (sent calls) else (e, calls)

namespace Netchan

/-! ### The other protocol -/

/-- The new reliable message, where there is none on its way. -/
def takeNqReliable (chan : Netchan) : Netchan :=
  if chan.reliableLength = 0 ∧ chan.message.cursize ≠ 0 ∧ chan.nqunreliableonly ≠ 1 then
    { chan with
      nqunreliableonly := if chan.nqunreliableonly = 2 then 1 else chan.nqunreliableonly
      reliableBuf := chan.reliableBuf.blit 0 chan.message.contents
      reliableLength := chan.message.cursize
      reliableStart := 0
      message := { chan.message with cursize := 0 } }
  else chan

/-- What `NET_SendPacket` says of the `i` bytes of the reliable message: over TCP they count as
acknowledged. -/
def sentNqReliable (env : SendEnv) (i : ℕ) (chan : Netchan) : Netchan :=
  if env.reliable = .sent ∧ (netAddrIsReliable chan.remoteAddress ∨ chan.nqunreliableonly = 3) then
    let start := chan.reliableStart + i
    let done := start ≥ chan.reliableLength
    { chan with
      reliableStart := if done then 0 else start
      reliableLength := if done then 0 else chan.reliableLength
      incomingReliableAcknowledged := chan.reliableSequence
      reliableSequence := chan.reliableSequence + 1
      nqreliableAllowed := true }
  else chan

/-- The reliable part of `Netchan_Transmit` in NetQuake's protocol, with what it sends. -/
def transmitNqReliable (env : SendEnv) (chan : Netchan) : Option (Netchan × ℕ) := do
  let chan := chan.takeNqReliable
  let i := chan.reliableLength - chan.reliableStart
  if i > 0 then
    let i := if i > maxNqdatagram ∧ !netAddrIsReliable chan.remoteAddress then maxNqdatagram else i
    let (_, send) ← (do
      msgWriteLong 0
      msgWriteLong (longSwap chan.reliableSequence).toInt
      szWrite (chan.reliableBuf.slice chan.reliableStart i) : MsgWriter Unit).run
        (sendBuffer env (maxNqmsglen + packetHeader))
    let chan := { chan with nqreliableAllowed := false, nqreliableResendtime := env.realtime + 3 / 10 }
    some (chan.sentNqReliable env i, send.cursize)
  else some (chan, 0)

/-- `if (e == NETERR_MTU && chan->mtu_cur > chan->mtu_min)`, after the unreliable part. -/
def refuseNq (e : Neterr) (chan : Netchan) : Netchan :=
  if e = .mtu ∧ chan.mtuCur > chan.mtuMin then { chan with mtuCur := max chan.mtuMin (chan.mtuCur - 10) } else chan

/-- The unreliable part. -/
def transmitNqUnreliable (env : SendEnv) (data : List QByte) (chan : Netchan) : Option (Netchan × Int) := do
  if data ≠ [] then
    let (_, send) ← (do
      msgWriteLong 0
      msgWriteLong (longSwap chan.outgoingUnreliable).toInt
      szWrite data : MsgWriter Unit).run (sendBuffer env (maxNqmsglen + packetHeader))
    let chan := { chan with outgoingUnreliable := chan.outgoingUnreliable + 1 }
    let (e, calls) := sendDupes env.sent (chan.dupe + 1).toNat 0 .sent
    some (chan.refuseNq e, send.cursize * ((calls : Int) - 1))
  else some (chan, 0)

/-- `Netchan_Transmit` in NetQuake's protocol. -/
def transmitNq (env : SendEnv) (data : List QByte) (chan : Netchan) : Option (Netchan × Int) := do
  let chan := { chan with nqreliableAllowed := chan.nqreliableAllowed || chan.nqreliableResendtime < env.realtime }
  let (chan, reliable) ←
    (if chan.nqreliableAllowed then chan.transmitNqReliable env else some (chan, 0) : Option (Netchan × ℕ))
  let (chan, unreliable) ← chan.transmitNqUnreliable env data
  some (chan, reliable + unreliable)

/-! ### The reliable message -/

/-- Whether the reliable message is to be sent, with a new one taken when there is none. -/
def takeReliable (chan : Netchan) : Netchan × Bool :=
  let sendReliable :=
    chan.lastReliableSequence.toInt < chan.incomingAcknowledged.toInt ∧
      chan.incomingReliableAcknowledged ≠ chan.reliableSequence
  if chan.reliableLength = 0 ∧ chan.message.cursize ≠ 0 then
    ({ chan with
      reliableBuf := chan.reliableBuf.blit 0 chan.message.contents
      reliableLength := chan.message.cursize
      message := { chan.message with cursize := 0 }
      reliableSequence := chan.reliableSequence ^^^ 1
      mtuResends := 0 }, true)
  else (chan, sendReliable)

/-- The reliable message in a datagram of its own. -/
def transmitKexlan (env : SendEnv) (chan : Netchan) : Option Netchan := do
  let chan ←
    (if chan.reliableLength ≠ 0 then do
      let _ ← (do
        msgWriteLong (1 <<< 31)
        msgWriteLong (1 <<< 31)
        szWrite (chan.reliableBuf.slice 0 chan.reliableLength) : MsgWriter Unit).run
          (sendBuffer env (maxOverallmsglen + packetHeader))
      some (if env.reliable = .sent then { chan with reliableLength := 0 } else chan)
    else some chan : Option Netchan)
  some { chan with incomingReliableSequence := 0 }

/-! ### The packet -/

/-- `for (; (outgoing_sequence_last & 63) != mtuseq; outgoing_sequence_last++)`, where `rounds` is the
distance. -/
def forgetSizes : (rounds : ℕ) → Netchan → Netchan
  | 0, chan => chan
  | rounds + 1, chan =>
    forgetSizes rounds
      { chan with
        sentsizes := Function.update chan.sentsizes (chan.outgoingSequenceLast &&& 63).toNat 0
        outgoingSequenceLast := chan.outgoingSequenceLast + 1 }

/-- The length of the header. -/
def hsz (chan : Netchan) : ℕ :=
  8 + (if chan.client then chan.qportsize else 0) + (if chan.fragable then 2 else 0)

/-- The `qport` of a client. -/
def writeQport (chan : Netchan) : MsgWriter Unit :=
  if chan.client then
    if chan.qportsize = 2 then msgWriteShort chan.qport
    else if chan.qportsize = 1 then msgWriteByte (chan.qport % 256)
    else pure ()
  else pure ()

/-- The offset of a fragment. A channel that may fragment sends all that there is. -/
def writeOffset (chan : Netchan) : MsgWriter Unit :=
  if chan.fragable then do
    modify fun send => { send with maxsize := maxOverallmsglen - 100 }
    msgWriteShort 0
  else pure ()

/-- The header. -/
def writeHeader (chan : Netchan) (w1 w2 : BitVec 32) : MsgWriter Unit := do
  msgWriteLong w1.toInt
  msgWriteLong w2.toInt
  chan.writeQport
  chan.writeOffset

/-- The two words of the header. -/
def headerWords (chan : Netchan) (sendReliable : Bool) : BitVec 32 × BitVec 32 :=
  let w1 := chan.outgoingSequence ||| (if sendReliable then 1 <<< 31 else 0)
  let w2 := chan.incomingSequence ||| chan.incomingReliableSequence <<< 31
  if chan.stunaware then (longSwap (w1 + antistunbias), longSwap w2) else (w1, w2)

/-- The next packet has a number, and the sizes of those that were left out are forgotten. -/
def numberPacket (chan : Netchan) : Netchan :=
  let chan := forgetSizes ((chan.outgoingSequence - chan.outgoingSequenceLast) &&& 63).toNat chan
  { chan with outgoingSequence := chan.outgoingSequence + 1 }

/-- The header of the next packet: its place in `sentsizes`, and the buffer. -/
def beginPacket (env : SendEnv) (sendReliable : Bool) (chan : Netchan) : Option (Netchan × ℕ × Sizebuf) := do
  let send := sendBuffer env (chan.hsz + chan.mtuCur.toNat)
  let mtuseq := (chan.outgoingSequence &&& 63).toNat
  let w := chan.headerWords sendReliable
  let chan := chan.numberPacket
  let (_, send) ← (chan.writeHeader w.1 w.2).run send
  some (chan, mtuseq, send)

/-- The packet size goes down to its minimum, to be found again. -/
def resetMtu (chan : Netchan) : Netchan :=
  if chan.mtuCur > chan.mtuMin then { chan with mtuCur := chan.mtuMin, mtuProbes := 0 } else chan

/-- The reliable message into the packet; `none` inside where there is no room for it. -/
def packReliable (send : Sizebuf) (chan : Netchan) : Option (Netchan × Option Sizebuf) :=
  if send.maxsize < send.cursize + chan.reliableLength then
    some ({ chan with fatalError := true, outgoingSequence := chan.outgoingSequence - 1 }, none)
  else do
    let (_, send) ← (szWrite (chan.reliableBuf.slice 0 chan.reliableLength)).run send
    let chan := { chan with lastReliableSequence := chan.outgoingSequence }
    let chan : Netchan := if chan.mtuResends > 5 then chan.resetMtu else chan
    some ({ chan with mtuResends := chan.mtuResends + 1 }, some send)

/-- The unreliable message into the packet, where there is room for it. -/
def packUnreliable (data : List QByte) (send : Sizebuf) : Option Sizebuf :=
  if send.cursize + data.length ≤ send.maxsize then ((szWrite data).run send).map Prod.snd else some send

/-- Bytes that say nothing, up to the next packet size: whether the packet became a probe. -/
def packProbe (env : SendEnv) (sendReliable : Bool) (send : Sizebuf) (chan : Netchan) :
    Option (Netchan × Sizebuf × Bool) :=
  let chan :=
    if chan.mtuReprobetime < env.realtime then
      { chan with mtuProbes := min chan.mtuProbes 4, mtuReprobetime := env.realtime + 30 }
    else chan
  if !sendReliable ∧ chan.outgoingMtuProbe.toInt + chan.mtuProbes ≤ chan.incomingAcknowledged.toInt ∧
      chan.mtuCur < chan.mtuMax ∧ chan.mtuProbes < 5 then
    let targsize := min chan.mtuMax (chan.mtuCur + 16)
    let padsize := chan.hsz + targsize - send.cursize
    if padsize > 0 ∧ targsize ≤ send.maxsize then do
      -- `clc_nop` and `svc_nop` are both 1
      let (_, send) ← (szWrite (List.replicate padsize.toNat 1)).run send
      some
        ({ chan with
          mtuProbes := chan.mtuProbes + 1
          outgoingMtuProbe := chan.outgoingSequence
          mtuReprobetime := env.realtime + 30 }, send, true)
    else some (chan, send, false)
  else some (chan, send, false)

/-- `Huff_CompressPacket`, where there is a table. -/
def compress (env : SendEnv) (send : Sizebuf) (chan : Netchan) : Option Sizebuf :=
  match chan.compresstable with
  | some huff =>
    ((huffCompressPacket huff env.junk
      (8 + (if chan.client then 2 else 0) + (if chan.fragable then 2 else 0))).run send).map Prod.snd
  | none => some send

/-! ### The datagrams -/

/-- A packet as one datagram: the last answer, and the bytes sent. -/
def sendVanilla (env : SendEnv) (dupes : Int) (mtuseq : ℕ) (cursize : ℕ) (chan : Netchan) :
    Netchan × Neterr × Int :=
  let (e, calls) := sendDupes env.sent (dupes + 1).toNat 0 .sent
  let size : Int := cursize - chan.hsz
  let chan :=
    if e = .mtu ∧ size > chan.mtuMin then
      let mtuCur := max chan.mtuMin (size - 10)
      { chan with mtuCur, mtuMax := min chan.mtuMax mtuCur }
    else chan
  ({ chan with sentsizes := Function.update chan.sentsizes mtuseq (BitVec.ofInt 16 size) }, e, cursize * calls)

/-- How far the fragments are: the last answer, the number of calls, and the bytes sent. -/
structure Fragments where
  chan : Netchan
  e : Neterr
  calls : ℕ
  outbytes : Int

/-- One fragment, `count` times at most; the flag says that the packet is to be cut anew. -/
def sendFragment (env : SendEnv) (mtuseq : ℕ) (offset fragbytes : Int) : (count : ℕ) → Fragments → Fragments × Bool
  | 0, s => (s, false)
  | count + 1, s =>
    if s.e ≠ .sent then (s, false)
    else
      let chan := s.chan
      let e := env.sent s.calls
      if e = .mtu ∧ offset = 0 ∧ chan.mtuCur > chan.mtuMin then
        let mtuCur := max chan.mtuMin (chan.mtuCur - 16)
        ({ s with
          chan := { chan with mtuCur, mtuMax := min chan.mtuMax mtuCur }, e := .sent, calls := s.calls + 1 }, true)
      else
        let sentsizes :=
          if offset = 0 then Function.update chan.sentsizes mtuseq (BitVec.ofInt 16 (fragbytes - chan.hsz))
          else chan.sentsizes
        sendFragment env mtuseq offset fragbytes count
          ⟨{ chan with sentsizes }, e, s.calls + 1, s.outbytes + fragbytes⟩

/-- The end of the fragment that starts at `offset`, and whether another one follows. -/
def fragmentEnd (cursize : ℕ) (offset : Int) (chan : Netchan) : Int × Bool :=
  let no := offset + chan.mtuCur - chan.hsz
  if no < (cursize : Int) - chan.hsz then (no - no % 8, true) else ((cursize : Int) - chan.hsz, false)

/-- What a fragment leaves: a packet that is not cut anew has its packet size as before, and one that is
has a smaller one. -/
theorem sendFragment_mtu (env : SendEnv) (mtuseq count : ℕ) (offset fragbytes : Int) (s : Fragments) :
    let r := sendFragment env mtuseq offset fragbytes count s
    r.1.chan.mtuMin = s.chan.mtuMin ∧ if r.2 then
        s.chan.mtuMin < s.chan.mtuCur ∧ r.1.chan.mtuCur = max s.chan.mtuMin (s.chan.mtuCur - 16) ∧
          r.1.chan.mtuMax = min s.chan.mtuMax r.1.chan.mtuCur
      else r.1.chan.mtuCur = s.chan.mtuCur ∧ r.1.chan.mtuMax = s.chan.mtuMax := by
  induction count generalizing s with
  | zero => exact ⟨rfl, rfl, rfl⟩
  | succ count ih =>
    rw [sendFragment]
    split
    · exact ⟨rfl, rfl, rfl⟩
    · dsimp only
      split
      · rename_i hcut
        exact ⟨rfl, hcut.2.2, rfl, rfl⟩
      · exact ih _

theorem fragmentEnd_lt {cursize : ℕ} {offset : Int} {chan : Netchan} (h : (chan.fragmentEnd cursize offset).2) :
    (chan.fragmentEnd cursize offset).1 < cursize := by
  unfold fragmentEnd at h ⊢
  dsimp only at h ⊢
  split at h
  · rename_i hmore
    rw [if_pos hmore]
    dsimp only
    omega
  · cases h

/-- The loop over the fragments. Where a fragment is empty, it does not end. -/
def sendFragments (env : SendEnv) (dupes : Int) (mtuseq cursize : ℕ) (offset : Int) (s : Fragments) :
    Option Fragments :=
  let cut := s.chan.fragmentEnd cursize offset
  match h : sendFragment env mtuseq offset (cut.1 - offset + s.chan.hsz) (dupes + 1).toNat s with
  | (t, true) => sendFragments env dupes mtuseq cursize offset t
  | (t, false) =>
    if hmore : cut.2 then
      if offset < cut.1 then sendFragments env dupes mtuseq cursize cut.1 t else none
    else some t
termination_by ((s.chan.mtuCur - s.chan.mtuMin).toNat, (cursize - offset).toNat)
decreasing_by
  · have hmtu := sendFragment_mtu env mtuseq (dupes + 1).toNat offset (cut.1 - offset + s.chan.hsz) s
    rw [h] at hmtu
    simp only [if_true] at hmtu
    exact Prod.Lex.left _ _ (by omega)
  · have hmtu := sendFragment_mtu env mtuseq (dupes + 1).toNat offset (cut.1 - offset + s.chan.hsz) s
    rw [h] at hmtu
    simp only [Bool.false_eq_true, if_false] at hmtu
    have hlt : (s.chan.fragmentEnd cursize offset).1 < cursize := fragmentEnd_lt hmore
    have hoffset : offset < (s.chan.fragmentEnd cursize offset).1 := ‹offset < cut.1›
    rw [hmtu.1, hmtu.2.1]
    exact Prod.Lex.right _ (by omega)

/-- The packet as datagrams. -/
def sendDatagrams (env : SendEnv) (mtuseq : ℕ) (ismtuprobe : Bool) (cursize : ℕ) (chan : Netchan) :
    Option (Netchan × Neterr × Int) :=
  if env.demoplayback then some (chan, .sent, cursize)
  else
    let dupes := min chan.dupe (max 0 env.canBytes / cursize)
    if ismtuprobe || !chan.fragable then some (chan.sendVanilla env dupes mtuseq cursize)
    else (sendFragments env dupes mtuseq cursize 0 ⟨chan, .sent, 0, 0⟩).map fun s => (s.chan, s.e, s.outbytes)

/-- The rest of a packet that has its reliable message, and its sending. -/
def finishPacket (env : SendEnv) (data : List QByte) (sendReliable : Bool) (mtuseq : ℕ) (send : Sizebuf)
    (chan : Netchan) : Option (Netchan × Int) := do
  let chan :=
    if chan.outgoingSequence.toInt - chan.incomingAcknowledged.toInt > 128 then chan.resetMtu else chan
  let send ← packUnreliable data send
  let (chan, send, ismtuprobe) ← chan.packProbe env sendReliable send
  let send ← chan.compress env send
  let (chan, e, bytes) ← chan.sendDatagrams env mtuseq ismtuprobe send.cursize
  if e = .sent ∧ sendReliable ∧ netAddrIsReliable chan.remoteAddress then
    some ({ chan with reliableLength := 0 }, bytes)
  else some (chan, bytes)

end Netchan

/-- `Netchan_Transmit`: the channel, and the bytes sent. -/
def netchanTransmit (env : SendEnv) (data : List QByte) (chan : Netchan) : Option (Netchan × Int) :=
  if chan.isnqprotocol then chan.transmitNq env data
  else if chan.message.overflowed then some ({ chan with fatalError := true }, 0)
  else do
    let (chan, sendReliable) := chan.takeReliable
    let kexlan : Bool := sendReliable ∧ chan.remoteAddress.prot = .kexlan ∧ !env.demoplayback
    let chan ← (if kexlan then chan.transmitKexlan env else some chan : Option Netchan)
    let sendReliable := sendReliable && !kexlan
    let (chan, mtuseq, send) ← chan.beginPacket env sendReliable
    let (chan, send) ← (if sendReliable then chan.packReliable send else some (chan, some send) :
      Option (Netchan × Option Sizebuf))
    match send with
    | none => some (chan, 0)
    | some send => chan.finishPacket env data sendReliable mtuseq send

/-! ## Receiving -/

/-- The header of a packet. -/
structure PacketInfo where
  sequence : BitVec 32
  sequenceAck : BitVec 32
  offset : BitVec 16
  deriving DecidableEq, Repr

namespace PacketInfo

/-- `oob_reliable`. -/
def oobReliable (info : PacketInfo) : Bool := info.sequence = 1 <<< 31 ∧ info.sequenceAck = 1 <<< 31

/-- `sequence >> 31`. -/
def reliableMessage (info : PacketInfo) : BitVec 32 := info.sequence >>> 31

/-- `sequence_ack >> 31`. -/
def reliableAck (info : PacketInfo) : BitVec 32 := info.sequenceAck >>> 31

/-- `sequence & ~(1u<<31)`. -/
def number (info : PacketInfo) : BitVec 32 := info.sequence &&& 0x7fffffff

/-- `sequence_ack & ~(1u<<31)`. -/
def ack (info : PacketInfo) : BitVec 32 := info.sequenceAck &&& 0x7fffffff

end PacketInfo

namespace Netchan

/-- The header of `net_message`, where it is for this channel. -/
def readHeader (chan : Netchan) : MsgReader (Option PacketInfo) := do
  modify (msgBeginReading .netMessage chan.netprim)
  let sequence := BitVec.ofInt 32 (← msgReadLong)
  let sequenceAck := BitVec.ofInt 32 (← msgReadLong)
  if chan.stunaware ∧ longSwap sequence &&& antistunbias = 0 then return none
  let (sequence, sequenceAck) :=
    if chan.stunaware then (longSwap sequence - antistunbias, longSwap sequenceAck) else (sequence, sequenceAck)
  if !chan.client then msgReadSkip chan.qportsize
  if chan.fragable then
    let offset ← msgReadShort
    return some ⟨sequence, sequenceAck, BitVec.ofInt 16 offset⟩
  return some ⟨sequence, sequenceAck, 0⟩

/-- Whether a packet is of use: one out of the band on a reliable connection, or one that is newer. -/
def wanted (info : PacketInfo) (chan : Netchan) : Bool :=
  if info.oobReliable then netAddrIsReliable chan.remoteAddress
  else !(info.number ≤ chan.incomingSequence ∧
    ¬(info.reliableMessage ≠ 0 ∧ chan.remoteAddress.prot = .kexlan))

/-- The size of the packet that is acknowledged, while it is known. -/
def confirmedSize (info : PacketInfo) (chan : Netchan) : ℕ :=
  if info.oobReliable then 0
  else if chan.outgoingSequence - info.ack < 64 - 2 then (chan.sentsizes (info.ack &&& 63).toNat).toNat
  else 0

/-- `if (ssize && ssize > chan->mtu_cur)`. -/
def confirm (ssize : ℕ) (chan : Netchan) : Netchan :=
  if ssize ≠ 0 ∧ ssize > chan.mtuCur then { chan with mtuCur := ssize, mtuProbes := 0 } else chan

/-- The fragment that is left to read, and whether the packet is complete. -/
def takeFragment (info : PacketInfo) (chan : Netchan) (st : MsgState) : Bool × Netchan × MsgState :=
  if info.offset ≠ 0 then
    let len := st.netMessage.cursize - msgGetReadCount st
    let more := info.offset &&& 1 ≠ 0
    let offset := (info.offset &&& ~~~1).toNat <<< 2
    if offset + len > maxOverallmsglen then (false, chan, st)
    else
      let chan :=
        if chan.incomingUnreliable ≠ info.number then
          { chan with inFragmentLength := 0, incomingUnreliable := info.number }
        else chan
      if offset ≠ chan.inFragmentLength then (false, chan, st)
      else
        let chan :=
          { chan with
            inFragmentBuf := chan.inFragmentBuf.blit offset (st.netMessage.data.slice (msgGetReadCount st) len)
            inFragmentLength := chan.inFragmentLength + len }
        if more then (false, chan, st)
        else
          let netMessage :=
            { st.netMessage with
              data := st.netMessage.data.blit 0 (chan.inFragmentBuf.slice 0 chan.inFragmentLength)
              currentbit := 0
              cursize := chan.inFragmentLength }
          (true, { chan with incomingUnreliable := 0, inFragmentLength := 0 }, { st with netMessage })
  else (true, { chan with incomingUnreliable := 0, inFragmentLength := 0 }, st)

/-- What a complete packet tells about the reliable messages. -/
def acknowledge (info : PacketInfo) (chan : Netchan) : Netchan :=
  let chan := if info.reliableAck = chan.reliableSequence then { chan with reliableLength := 0 } else chan
  if info.oobReliable then chan
  else
    { chan with
      incomingSequence := info.number
      incomingAcknowledged := info.ack
      incomingReliableAcknowledged := info.reliableAck
      incomingReliableSequence :=
        if info.reliableMessage ≠ 0 then chan.incomingReliableSequence ^^^ 1 else chan.incomingReliableSequence }

/-- `Huff_DecompressPacket`, where there is a table. -/
def decompress (chan : Netchan) (st : MsgState) : Option MsgState :=
  match chan.compresstable with
  | some huff =>
    ((huffDecompressPacket huff (msgGetReadCount st)).run st.netMessage).map fun r => { st with netMessage := r.2 }
  | none => some st

end Netchan

/-- `Netchan_Process`: whether there is a packet to be read, the channel, and the message.
`forUs` is what `NET_CompareAdr` says of the sender, or `cls.demoplayback`. -/
def netchanProcess (forUs : Bool) (chan : Netchan) (st : MsgState) : Option (Bool × Netchan × MsgState) :=
  if !forUs then some (false, chan, st)
  else do
    let (info, st) ← chan.readHeader.run st
    match info with
    | none => some (false, chan, st)
    | some info =>
      if chan.wanted info then
        let chan := chan.confirm (chan.confirmedSize info)
        match chan.takeFragment info st with
        | (false, chan, st) => some (false, chan, st)
        | (true, chan, st) => do
          let chan := chan.acknowledge info
          let st ← chan.decompress st
          some (true, chan, st)
      else some (false, chan, st)

/-! ## The limits -/

/-- The packet size is between its limits. -/
def Netchan.InBounds (chan : Netchan) : Prop := chan.mtuMin ≤ chan.mtuCur ∧ chan.mtuCur ≤ chan.mtuMax

instance (chan : Netchan) : Decidable chan.InBounds := inferInstanceAs (Decidable (_ ∧ _))

/-- The same packet size, with the same limits. -/
structure SameMtu (c c' : Netchan) : Prop where
  cur : c'.mtuCur = c.mtuCur
  min : c'.mtuMin = c.mtuMin
  max : c'.mtuMax = c.mtuMax

/-- A change that keeps the packet size above its minimum and, where `P` holds, between its limits, and
does not raise the upper one. -/
structure KeepsMtu (P : Prop) (c c' : Netchan) : Prop where
  min : c'.mtuMin = c.mtuMin
  max : c'.mtuMax ≤ c.mtuMax
  low : c.mtuMin ≤ c.mtuCur → c'.mtuMin ≤ c'.mtuCur
  high : P → c.InBounds → c'.mtuCur ≤ c'.mtuMax

namespace SameMtu

variable {c c' c'' : Netchan}

theorem refl (c : Netchan) : SameMtu c c := ⟨rfl, rfl, rfl⟩

theorem trans (h : SameMtu c c') (h' : SameMtu c' c'') : SameMtu c c'' :=
  ⟨h'.cur.trans h.cur, h'.min.trans h.min, h'.max.trans h.max⟩

theorem keeps {P : Prop} (h : SameMtu c c') : KeepsMtu P c c' where
  min := h.min
  max := h.max.le
  low hlow := by rw [h.min, h.cur]; exact hlow
  high _ hbounds := by rw [h.cur, h.max]; exact hbounds.2

end SameMtu

namespace KeepsMtu

variable {P Q : Prop} {c c' c'' : Netchan}

theorem refl (c : Netchan) : KeepsMtu P c c := (SameMtu.refl c).keeps

theorem inBounds (h : KeepsMtu P c c') (hP : P) (hc : c.InBounds) : c'.InBounds := ⟨h.low hc.1, h.high hP hc⟩

theorem trans (h : KeepsMtu P c c') (h' : KeepsMtu P c' c'') : KeepsMtu P c c'' where
  min := h'.min.trans h.min
  max := h'.max.trans h.max
  low hlow := h'.low (h.low hlow)
  high hP hbounds := h'.high hP (h.inBounds hP hbounds)

/-- What has to hold of a channel between its limits need not be said. -/
theorem of_inBounds (h : KeepsMtu c.InBounds c c') : KeepsMtu P c c' :=
  ⟨h.min, h.max, h.low, fun _ hbounds => h.high hbounds hbounds⟩

/-- The packet size falls, not below its minimum. -/
theorem of_lower (hmin : c'.mtuMin = c.mtuMin) (hmax : c'.mtuMax = c.mtuMax)
    (hlow : c.mtuMin ≤ c.mtuCur → c.mtuMin ≤ c'.mtuCur) (hcur : c.mtuMin ≤ c.mtuCur → c'.mtuCur ≤ c.mtuCur) :
    KeepsMtu P c c' where
  min := hmin
  max := hmax.le
  low h := hmin ▸ hlow h
  high _ h := by
    rw [hmax]
    exact (hcur h.1).trans h.2

end KeepsMtu

namespace Netchan

variable {P : Prop} {env : SendEnv} {chan chan' : Netchan} {data : List QByte} {send send' : Sizebuf}

/-! ### NetQuake's protocol -/

theorem takeNqReliable_same (chan : Netchan) : SameMtu chan chan.takeNqReliable := by
  unfold takeNqReliable
  split
  · exact ⟨rfl, rfl, rfl⟩
  · exact .refl _

theorem sentNqReliable_same (env : SendEnv) (i : ℕ) (chan : Netchan) : SameMtu chan (chan.sentNqReliable env i) := by
  unfold sentNqReliable
  split
  · exact ⟨rfl, rfl, rfl⟩
  · exact .refl _

theorem transmitNqReliable_same {k : ℕ} (h : chan.transmitNqReliable env = some (chan', k)) :
    SameMtu chan chan' := by
  have htake := chan.takeNqReliable_same
  unfold transmitNqReliable at h
  dsimp only at h
  split at h
  · obtain ⟨r, -, hrest⟩ := bind_eq_some_iff.1 h
    cases hrest
    refine htake.trans (SameMtu.trans ?_ (sentNqReliable_same env _ _))
    exact ⟨rfl, rfl, rfl⟩
  · cases h
    exact htake

theorem refuseNq_keeps (e : Neterr) (chan : Netchan) : KeepsMtu P chan (chan.refuseNq e) := by
  unfold refuseNq
  split
  · exact .of_lower rfl rfl (fun _ => le_max_left _ _) fun h => max_le h (by omega)
  · exact .refl _

theorem transmitNqUnreliable_keeps {k : Int} (h : chan.transmitNqUnreliable env data = some (chan', k)) :
    KeepsMtu P chan chan' := by
  unfold transmitNqUnreliable at h
  split at h
  · obtain ⟨r, -, hrest⟩ := bind_eq_some_iff.1 h
    cases hrest
    refine KeepsMtu.trans (SameMtu.keeps ?_) (refuseNq_keeps _ _)
    exact ⟨rfl, rfl, rfl⟩
  · cases h
    exact .refl _

theorem transmitNq_keeps {k : Int} (h : chan.transmitNq env data = some (chan', k)) : KeepsMtu P chan chan' := by
  unfold transmitNq at h
  obtain ⟨⟨c₁, k₁⟩, hreliable, h⟩ := bind_eq_some_iff.1 h
  obtain ⟨⟨c₂, k₂⟩, hunreliable, h⟩ := bind_eq_some_iff.1 h
  cases h
  have hfirst : SameMtu chan c₁ := by
    split at hreliable
    · refine SameMtu.trans ?_ (transmitNqReliable_same hreliable)
      exact ⟨rfl, rfl, rfl⟩
    · cases hreliable
      exact ⟨rfl, rfl, rfl⟩
  exact hfirst.keeps.trans (transmitNqUnreliable_keeps hunreliable)

/-! ### The packet and its size -/

theorem takeReliable_same (chan : Netchan) : SameMtu chan chan.takeReliable.1 := by
  unfold takeReliable
  dsimp only
  split
  · exact ⟨rfl, rfl, rfl⟩
  · exact .refl _

theorem transmitKexlan_same (h : chan.transmitKexlan env = some chan') : SameMtu chan chan' := by
  unfold transmitKexlan at h
  obtain ⟨c, hc, h⟩ := bind_eq_some_iff.1 h
  cases h
  have hsame : SameMtu chan c := by
    split at hc
    · obtain ⟨r, -, hc⟩ := bind_eq_some_iff.1 hc
      cases hc
      split
      · exact ⟨rfl, rfl, rfl⟩
      · exact .refl _
    · cases hc
      exact .refl _
  exact hsame.trans ⟨rfl, rfl, rfl⟩

theorem forgetSizes_same (rounds : ℕ) (chan : Netchan) :
    SameMtu chan (forgetSizes rounds chan) ∧ (forgetSizes rounds chan).flags = chan.flags ∧
      (forgetSizes rounds chan).qportsize = chan.qportsize := by
  induction rounds generalizing chan with
  | zero => exact ⟨.refl _, rfl, rfl⟩
  | succ rounds ih =>
    obtain ⟨hsame, hflags, hqport⟩ := ih { chan with
        sentsizes := Function.update chan.sentsizes (chan.outgoingSequenceLast &&& 63).toNat 0
        outgoingSequenceLast := chan.outgoingSequenceLast + 1 }
    refine ⟨SameMtu.trans ?_ hsame, hflags, hqport⟩
    exact ⟨rfl, rfl, rfl⟩

variable {sendReliable : Bool} {r : Unit} {cursize m mtuseq : ℕ}

/-- What a write to a buffer that does not allow overflow leaves. -/
theorem szWrite_inv {xs : List QByte} (h : (szWrite xs).run send = some (r, send'))
    (hallow : send.allowoverflow = false) :
    send'.allowoverflow = false ∧ send'.maxsize = send.maxsize ∧ send'.cursize = send.cursize + xs.length ∧
      send'.cursize ≤ send'.maxsize := by
  obtain ⟨p, u, hspace, hstore⟩ := StreamProgram.run_bind_inv h
  change szGetSpace xs.length send = _ at hspace
  unfold szGetSpace at hspace
  rw [hallow] at hspace
  split at hspace
  · cases hspace
  · rename_i hfits
    cases hspace
    cases hstore
    exact ⟨rfl, rfl, rfl, not_lt.1 hfits⟩

/-- A buffer that does not allow overflow, of size `m` where the channel may not fragment. -/
structure Bounds (chan : Netchan) (m : ℕ) (send : Sizebuf) : Prop where
  strict : send.allowoverflow = false
  size : chan.fragable = false → send.cursize ≤ send.maxsize ∧ send.maxsize = m

theorem Bounds.szWrite (hb : Bounds chan m send) {xs : List QByte}
    (h : (szWrite xs).run send = some (r, send')) : Bounds chan m send' := by
  obtain ⟨hallow, hmax, -, hle⟩ := szWrite_inv h hb.strict
  exact ⟨hallow, fun hf => ⟨hle, hmax.trans (hb.size hf).2⟩⟩

theorem Bounds.writeQport (hb : Bounds chan m send)
    (h : chan.writeQport.run send = some (r, send')) : Bounds chan m send' := by
  unfold Netchan.writeQport at h
  split at h
  · split at h
    · exact hb.szWrite h
    · split at h
      · exact hb.szWrite h
      · cases h
        exact hb
  · cases h
    exact hb

theorem Bounds.writeOffset (hb : Bounds chan m send)
    (h : chan.writeOffset.run send = some (r, send')) : Bounds chan m send' := by
  unfold Netchan.writeOffset at h
  split at h
  · rename_i hfrag
    obtain ⟨_, s, hmax, h⟩ := StreamProgram.run_bind_inv h
    cases hmax
    obtain ⟨hallow, -⟩ := szWrite_inv h hb.strict
    exact ⟨hallow, fun hf => absurd (hfrag.symm.trans hf) (by decide)⟩
  · cases h
    exact hb

theorem Bounds.writeHeader (hb : Bounds chan m send) {w1 w2 : BitVec 32}
    (h : (chan.writeHeader w1 w2).run send = some (r, send')) : Bounds chan m send' := by
  obtain ⟨_, s₁, h1, h⟩ := StreamProgram.run_bind_inv h
  obtain ⟨_, s₂, h2, h⟩ := StreamProgram.run_bind_inv h
  obtain ⟨_, s₃, h3, h4⟩ := StreamProgram.run_bind_inv h
  exact (((hb.szWrite h1).szWrite h2).writeQport h3).writeOffset h4

theorem numberPacket_same (chan : Netchan) :
    SameMtu chan chan.numberPacket ∧ chan.numberPacket.hsz = chan.hsz := by
  obtain ⟨hsame, hflags, hqport⟩ :=
    forgetSizes_same ((chan.outgoingSequence - chan.outgoingSequenceLast) &&& 63).toNat chan
  constructor
  · exact hsame.trans ⟨rfl, rfl, rfl⟩
  · have hflags : chan.numberPacket.flags = chan.flags := hflags
    have hqport : chan.numberPacket.qportsize = chan.qportsize := hqport
    unfold hsz client fragable
    rw [hflags, hqport]

theorem beginPacket_spec (h : chan.beginPacket env sendReliable = some (chan', mtuseq, send)) :
    SameMtu chan chan' ∧ Bounds chan' (chan'.hsz + chan'.mtuCur.toNat) send := by
  obtain ⟨⟨_, s⟩, hwrite, h⟩ := bind_eq_some_iff.1 h
  cases h
  obtain ⟨hsame, hhsz⟩ := chan.numberPacket_same
  refine ⟨hsame, ?_⟩
  rw [hhsz, hsame.cur]
  exact Bounds.writeHeader ⟨rfl, fun _ => ⟨Nat.zero_le _, rfl⟩⟩ hwrite

/-- A step of filling the packet: the packet size may fall, and the header stays. -/
structure Packs (c c' : Netchan) : Prop where
  min : c'.mtuMin = c.mtuMin
  max : c'.mtuMax = c.mtuMax
  low : c.mtuMin ≤ c.mtuCur → c.mtuMin ≤ c'.mtuCur
  cur : c.mtuMin ≤ c.mtuCur → c'.mtuCur ≤ c.mtuCur
  hsz : c'.hsz = c.hsz
  fragable : c'.fragable = c.fragable

theorem Packs.refl (c : Netchan) : Packs c c := ⟨rfl, rfl, id, fun _ => le_refl _, rfl, rfl⟩

theorem Packs.trans {c c' c'' : Netchan} (h : Packs c c') (h' : Packs c' c'') : Packs c c'' where
  min := h'.min.trans h.min
  max := h'.max.trans h.max
  low hlow := h.min ▸ h'.low (h.min.symm ▸ h.low hlow)
  cur hlow := (h'.cur (h.min.symm ▸ h.low hlow)).trans (h.cur hlow)
  hsz := h'.hsz.trans h.hsz
  fragable := h'.fragable.trans h.fragable

theorem Packs.keeps {c c' : Netchan} (h : Packs c c') : KeepsMtu P c c' := .of_lower h.min h.max h.low h.cur

theorem resetMtu_packs (chan : Netchan) : Packs chan chan.resetMtu := by
  unfold resetMtu
  split
  · exact ⟨rfl, rfl, fun _ => le_refl _, fun h => h, rfl, rfl⟩
  · exact .refl _

/-- The reliable message goes into the packet, or the packet is given up. -/
theorem packReliable_spec {r : Option Sizebuf} (h : chan.packReliable send = some (chan', r))
    (hb : Bounds chan m send) : Packs chan chan' ∧ ∀ s ∈ r, Bounds chan m s := by
  unfold packReliable at h
  split at h
  · cases h
    exact ⟨⟨rfl, rfl, id, fun _ => le_refl _, rfl, rfl⟩, nofun⟩
  · obtain ⟨⟨_, s⟩, hwrite, h⟩ := bind_eq_some_iff.1 h
    cases h
    have hsequence : Packs chan { chan with lastReliableSequence := chan.outgoingSequence } :=
      ⟨rfl, rfl, id, fun _ => le_refl _, rfl, rfl⟩
    refine ⟨hsequence.trans ?_, ?_⟩
    · split
      · refine (resetMtu_packs _).trans ?_
        exact ⟨rfl, rfl, id, fun _ => le_refl _, rfl, rfl⟩
      · exact ⟨rfl, rfl, id, fun _ => le_refl _, rfl, rfl⟩
    · rintro _ ⟨⟩
      exact hb.szWrite hwrite

theorem packUnreliable_bounds (h : packUnreliable data send = some send') (hb : Bounds chan m send) :
    Bounds chan m send' := by
  unfold packUnreliable at h
  split at h
  · obtain ⟨⟨_, s⟩, hwrite, hs⟩ := map_eq_some_iff.1 h
    cases hs
    exact hb.szWrite hwrite
  · cases h
    exact hb

/-- A probe is larger than the packets before it, and within the limit. -/
theorem packProbe_spec {probe : Bool}
    (h : chan.packProbe env sendReliable send = some (chan', send', probe)) (hb : Bounds chan m send) :
    Packs chan chan' ∧ Bounds chan m send' ∧
      (probe = true → (send'.cursize : Int) ≤ chan.hsz + chan.mtuMax) := by
  unfold packProbe at h
  dsimp only at h
  have hreprobe : Packs chan (if chan.mtuReprobetime < env.realtime then
        { chan with mtuProbes := min chan.mtuProbes 4, mtuReprobetime := env.realtime + 30 }
      else chan) := by
    split
    · exact ⟨rfl, rfl, id, fun _ => le_refl _, rfl, rfl⟩
    · exact .refl _
  generalize (if chan.mtuReprobetime < env.realtime then
    { chan with mtuProbes := min chan.mtuProbes 4, mtuReprobetime := env.realtime + 30 } else chan) = c at h hreprobe
  split at h
  · split at h
    · rename_i hpad
      obtain ⟨⟨_, s⟩, hwrite, h⟩ := bind_eq_some_iff.1 h
      cases h
      refine ⟨hreprobe.trans ⟨rfl, rfl, id, fun _ => le_refl _, rfl, rfl⟩, hb.szWrite hwrite, fun _ => ?_⟩
      obtain ⟨-, -, hcursize, -⟩ := szWrite_inv hwrite hb.strict
      have hmax := hreprobe.max
      have hhsz := hreprobe.hsz
      rw [List.length_replicate] at hcursize
      change (s.cursize : Int) ≤ _
      omega
    · cases h
      exact ⟨hreprobe, hb, nofun⟩
  · cases h
    exact ⟨hreprobe, hb, nofun⟩

theorem compress_cursize_le (h : chan.compress env send = some send') : send'.cursize ≤ send.cursize + 1 := by
  unfold compress at h
  split at h
  · obtain ⟨⟨_, s⟩, hrun, hs⟩ := map_eq_some_iff.1 h
    cases hs
    exact huffCompressPacket_cursize_le hrun
  · cases h
    exact Nat.le_succ _

/-! ### The datagrams -/

theorem sendVanilla_keeps (env : SendEnv) (dupes : Int) (mtuseq : ℕ)
    (hsize : P → (cursize : Int) ≤ chan.hsz + chan.mtuMax + 1) :
    KeepsMtu P chan (chan.sendVanilla env dupes mtuseq cursize).1 := by
  unfold sendVanilla
  dsimp only
  split
  · refine ⟨rfl, min_le_left _ _, fun _ => le_max_left _ _, fun hP hbounds => ?_⟩
    have hsize := hsize hP
    have hmin := hbounds.1.trans hbounds.2
    exact le_min (max_le hmin (by omega)) (le_refl _)
  · exact SameMtu.keeps ⟨rfl, rfl, rfl⟩

theorem sendFragment_keeps (env : SendEnv) (mtuseq count : ℕ) (offset fragbytes : Int) (s : Fragments) :
    KeepsMtu P s.chan (sendFragment env mtuseq offset fragbytes count s).1.chan := by
  obtain ⟨hmin, hmtu⟩ := sendFragment_mtu env mtuseq count offset fragbytes s
  split at hmtu
  · obtain ⟨hgt, hcur, hmax⟩ := hmtu
    refine ⟨hmin, by omega, fun _ => by omega, fun _ hbounds => ?_⟩
    have := hbounds.2
    omega
  · exact SameMtu.keeps ⟨hmtu.1, hmin, hmtu.2⟩

theorem sendFragments_eq (env : SendEnv) (dupes : Int) (mtuseq cursize : ℕ) (offset : Int) (s : Fragments) :
    sendFragments env dupes mtuseq cursize offset s =
      let cut := s.chan.fragmentEnd cursize offset
      let r := sendFragment env mtuseq offset (cut.1 - offset + s.chan.hsz) (dupes + 1).toNat s
      if r.2 then sendFragments env dupes mtuseq cursize offset r.1
      else if cut.2 then
        if offset < cut.1 then sendFragments env dupes mtuseq cursize cut.1 r.1 else none
      else some r.1 := by
  rw [sendFragments]
  dsimp only
  split
  · rename_i t hcut
    rw [hcut]
    rfl
  · rename_i t hcut
    rw [hcut]
    rfl

theorem sendFragments_keeps {dupes : Int} {offset : Int} {s t : Fragments}
    (h : sendFragments env dupes mtuseq cursize offset s = some t) : KeepsMtu P s.chan t.chan := by
  have hstep {offset fragbytes : Int} {s u : Fragments} {again : Bool}
      (hcut : sendFragment env mtuseq offset fragbytes (dupes + 1).toNat s = (u, again)) :
      KeepsMtu P s.chan u.chan := by
    have hkeeps : KeepsMtu P _ _ := sendFragment_keeps env mtuseq (dupes + 1).toNat offset fragbytes s
    rwa [hcut] at hkeeps
  induction offset, s using sendFragments.induct env dupes mtuseq cursize with
  | case1 offset s cut u hcut ih =>
    rw [sendFragments_eq] at h
    dsimp only [cut] at h hcut
    rw [hcut] at h
    exact (hstep hcut).trans (ih h)
  | case2 offset s cut u hcut hmore hoffset ih =>
    rw [sendFragments_eq] at h
    dsimp only [cut] at h hcut hmore hoffset
    rw [hcut] at h
    dsimp only at h
    rw [if_neg Bool.false_ne_true, if_pos hmore, if_pos hoffset] at h
    exact (hstep hcut).trans (ih h)
  | case3 offset s cut u hcut hmore hoffset =>
    rw [sendFragments_eq] at h
    dsimp only [cut] at h hcut hmore hoffset
    rw [hcut] at h
    dsimp only at h
    rw [if_neg Bool.false_ne_true, if_pos hmore, if_neg hoffset] at h
    cases h
  | case4 offset s cut u hcut hmore =>
    rw [sendFragments_eq] at h
    dsimp only [cut] at h hcut hmore
    rw [hcut] at h
    dsimp only at h
    rw [if_neg Bool.false_ne_true, if_neg hmore] at h
    cases h
    exact hstep hcut

theorem sendDatagrams_keeps {probe : Bool} {e : Neterr} {bytes : Int}
    (h : chan.sendDatagrams env mtuseq probe cursize = some (chan', e, bytes))
    (hsize : probe = true ∨ chan.fragable = false → P →
      (cursize : Int) ≤ chan.hsz + chan.mtuMax + 1) : KeepsMtu P chan chan' := by
  unfold sendDatagrams at h
  split at h
  · cases h
    exact .refl _
  · dsimp only at h
    split at h
    · rename_i hwhole
      rw [Bool.or_eq_true, Bool.not_eq_true'] at hwhole
      have hkeeps := sendVanilla_keeps env (min chan.dupe (max 0 env.canBytes / cursize)) mtuseq (hsize hwhole)
      rw [Option.some.inj h] at hkeeps
      exact hkeeps
    · obtain ⟨s, hrun, hs⟩ := map_eq_some_iff.1 h
      cases hs
      exact sendFragments_keeps hrun

/-- The rest of a packet, in a buffer that was as large as the packet size when it was begun. -/
theorem finishPacket_keeps {bytes : Int} (h : chan.finishPacket env data sendReliable mtuseq send = some (chan', bytes))
    (hb : Bounds chan m send) (hm : P → (m : Int) ≤ chan.hsz + chan.mtuMax) :
    KeepsMtu P chan chan' := by
  unfold finishPacket at h
  dsimp only at h
  have hreset : Packs chan
      (if chan.outgoingSequence.toInt - chan.incomingAcknowledged.toInt > 128 then chan.resetMtu else chan) := by
    split
    · exact chan.resetMtu_packs
    · exact .refl _
  generalize (if chan.outgoingSequence.toInt - chan.incomingAcknowledged.toInt > 128 then chan.resetMtu
    else chan) = c at h hreset
  obtain ⟨s₁, hunreliable, h⟩ := bind_eq_some_iff.1 h
  obtain ⟨⟨c₂, s₂, probe⟩, hprobe, h⟩ := bind_eq_some_iff.1 h
  obtain ⟨s₃, hcompress, h⟩ := bind_eq_some_iff.1 h
  obtain ⟨⟨c₃, e, sent⟩, hsend, h⟩ := bind_eq_some_iff.1 h
  have hbc : Bounds c m send := ⟨hb.strict, fun hf => hb.size (hreset.fragable ▸ hf)⟩
  obtain ⟨hpacks, hb₂, hlarge⟩ := packProbe_spec hprobe (packUnreliable_bounds hunreliable hbc)
  have hgrown : s₃.cursize ≤ s₂.cursize + 1 := compress_cursize_le hcompress
  have hall := hreset.trans hpacks
  have hsize : probe = true ∨ c₂.fragable = false → P → (s₃.cursize : Int) ≤ c₂.hsz + c₂.mtuMax + 1 := by
    intro hwhole hP
    have hm := hm hP
    have hmax := hall.max
    have hhsz := hall.hsz
    have hmax₂ := hpacks.max
    have hhsz₂ := hpacks.hsz
    rcases hwhole with hwhole | hwhole
    · have := hlarge hwhole
      omega
    · obtain ⟨hle, hmaxsize⟩ := hb₂.size (hpacks.fragable ▸ hwhole)
      omega
  have hkeeps := hall.keeps.trans (sendDatagrams_keeps hsend hsize)
  split at h
  · cases h
    exact hkeeps.trans (SameMtu.keeps ⟨rfl, rfl, rfl⟩)
  · cases h
    exact hkeeps

end Netchan

open Netchan

/-- `Netchan_Transmit` keeps the packet size between its limits, whatever `NET_SendPacket` answers. -/
theorem netchanTransmit_keeps {P : Prop} {env : SendEnv} {data : List QByte} {chan chan' : Netchan} {bytes : Int}
    (h : netchanTransmit env data chan = some (chan', bytes)) (hmin : 0 ≤ chan.mtuMin) : KeepsMtu P chan chan' := by
  unfold netchanTransmit at h
  split at h
  · exact transmitNq_keeps h
  · split at h
    · cases h
      exact SameMtu.keeps ⟨rfl, rfl, rfl⟩
    · have htake := chan.takeReliable_same
      obtain ⟨c₁, hkexlan, h⟩ := bind_eq_some_iff.1 h
      obtain ⟨⟨c₂, mtuseq, send⟩, hbegin, h⟩ := bind_eq_some_iff.1 h
      obtain ⟨⟨c₃, r⟩, hpack, h⟩ := bind_eq_some_iff.1 h
      have hfirst : SameMtu chan c₁ := by
        split at hkexlan
        · exact htake.trans (transmitKexlan_same hkexlan)
        · cases hkexlan
          exact htake
      obtain ⟨hsame, hb⟩ := beginPacket_spec hbegin
      have hreliable : Packs c₂ c₃ ∧ ∀ s ∈ r, Bounds c₂ (c₂.hsz + c₂.mtuCur.toNat) s := by
        split at hpack
        · exact packReliable_spec hpack hb
        · cases hpack
          exact ⟨.refl _, by rintro _ ⟨⟩; exact hb⟩
      obtain ⟨hpacks, hbuffer⟩ := hreliable
      have hsecond := hfirst.trans hsame
      have hthird : KeepsMtu chan.InBounds chan c₃ := hsecond.keeps.trans hpacks.keeps
      cases r with
      | none =>
        cases h
        exact hthird.of_inBounds
      | some send =>
        have hroom : chan.InBounds → ((c₂.hsz + c₂.mtuCur.toNat : ℕ) : Int) ≤ c₃.hsz + c₃.mtuMax := by
          intro hbounds
          obtain ⟨hlow, hhigh⟩ := hbounds
          have hcur := hsecond.cur
          have hmax := hsecond.max
          have hmax₃ := hpacks.max
          have hhsz := hpacks.hsz
          omega
        have hb₃ : Bounds c₃ (c₂.hsz + c₂.mtuCur.toNat) send :=
          ⟨(hbuffer send rfl).strict, fun hf => (hbuffer send rfl).size (hpacks.fragable ▸ hf)⟩
        exact (hthird.trans (finishPacket_keeps h hb₃ hroom)).of_inBounds

/-! ### Receiving -/

namespace Netchan

variable {forUs okay : Bool} {chan chan' : Netchan} {st st' : MsgState} {info : PacketInfo}

/-- The size that a call of `Netchan_Process` looks up, of the packet that is acknowledged. -/
def lookedUp (chan : Netchan) (forUs : Bool) (st : MsgState) : ℕ :=
  if forUs then
    match chan.readHeader.run st with
    | some (some info, _) => if chan.wanted info then chan.confirmedSize info else 0
    | _ => 0
  else 0

theorem confirm_zero (chan : Netchan) : chan.confirm 0 = chan := if_neg fun h => h.1 rfl

theorem takeFragment_same (info : PacketInfo) (chan : Netchan) (st : MsgState) :
    SameMtu chan (chan.takeFragment info st).2.1 := by
  unfold takeFragment
  split
  · dsimp only
    split
    · exact .refl _
    · have hsame : SameMtu chan (if chan.incomingUnreliable ≠ info.number then
            { chan with inFragmentLength := 0, incomingUnreliable := info.number } else chan) := by
        split
        · exact ⟨rfl, rfl, rfl⟩
        · exact .refl _
      generalize (if chan.incomingUnreliable ≠ info.number then
        { chan with inFragmentLength := 0, incomingUnreliable := info.number } else chan) = c at hsame ⊢
      split
      · exact hsame
      · split
        · exact hsame.trans ⟨rfl, rfl, rfl⟩
        · exact hsame.trans ⟨rfl, rfl, rfl⟩
  · exact ⟨rfl, rfl, rfl⟩

theorem acknowledge_same (info : PacketInfo) (chan : Netchan) : SameMtu chan (chan.acknowledge info) := by
  have hsame : SameMtu chan
      (if info.reliableAck = chan.reliableSequence then { chan with reliableLength := 0 } else chan) := by
    split
    · exact ⟨rfl, rfl, rfl⟩
    · exact .refl _
  unfold acknowledge
  dsimp only
  split
  · exact hsame
  · exact hsame.trans ⟨rfl, rfl, rfl⟩

end Netchan

/-- `Netchan_Process` changes the packet size by the confirmation alone. -/
theorem netchanProcess_spec {forUs okay : Bool} {chan chan' : Netchan} {st st' : MsgState}
    (h : netchanProcess forUs chan st = some (okay, chan', st')) :
    SameMtu (chan.confirm (chan.lookedUp forUs st)) chan' := by
  unfold netchanProcess at h
  unfold lookedUp
  cases forUs with
  | false =>
    cases h
    rw [if_neg Bool.false_ne_true, confirm_zero]
    exact .refl _
  | true =>
    rw [if_neg (by decide)] at h
    obtain ⟨⟨header, st₁⟩, hread, h⟩ := bind_eq_some_iff.1 h
    rw [if_pos rfl, hread]
    cases header with
    | none =>
      cases h
      rw [confirm_zero]
      exact .refl _
    | some info =>
      dsimp only at h ⊢
      split at h
      · rename_i hwanted
        rw [if_pos hwanted]
        have hsame := takeFragment_same info (chan.confirm (chan.confirmedSize info)) st₁
        split at h
        · rename_i c st₂ hfragment
          cases h
          rw [hfragment] at hsame
          exact hsame
        · rename_i c st₂ hfragment
          obtain ⟨st₃, -, h⟩ := bind_eq_some_iff.1 h
          cases h
          rw [hfragment] at hsame
          exact hsame.trans (acknowledge_same info c)
      · rename_i hwanted
        cases h
        rw [if_neg hwanted, confirm_zero]
        exact .refl _

/-! ## Runs -/

/-- What happens to a channel: the two calls, and the caller's changes of what is not the packet size. -/
inductive ChanOp
  | transmit (env : SendEnv) (data : List QByte)
  | process (forUs : Bool) (st : MsgState)
  | alter (chan : Netchan)

namespace ChanOp

/-- The channel afterwards. -/
def exec : ChanOp → Netchan → Option Netchan
  | transmit env data, chan => (netchanTransmit env data chan).map Prod.fst
  | process forUs st, chan => (netchanProcess forUs chan st).map fun r => r.2.1
  | alter chan', chan =>
    if chan'.mtuCur = chan.mtuCur ∧ chan'.mtuMin = chan.mtuMin ∧ chan'.mtuMax = chan.mtuMax then some chan' else none

/-- A confirmation is of a packet within the limit. -/
def Within : ChanOp → Netchan → Prop
  | process forUs st, chan => chan.lookedUp forUs st ≤ chan.mtuMax
  | _, _ => True

instance (op : ChanOp) (chan : Netchan) : Decidable (op.Within chan) :=
  match op with
  | transmit _ _ => isTrue trivial
  | process forUs st => inferInstanceAs (Decidable ((chan.lookedUp forUs st : Int) ≤ chan.mtuMax))
  | alter _ => isTrue trivial

variable {op : ChanOp} {c c' : Netchan}

theorem exec_spec (h : op.exec c = some c') (hmin : 0 ≤ c.mtuMin) :
    c'.mtuMin = c.mtuMin ∧ c'.mtuMax ≤ c.mtuMax ∧ (c.InBounds → (c'.InBounds ↔ op.Within c)) := by
  cases op with
  | transmit env data =>
    obtain ⟨⟨_, bytes⟩, hrun, hs⟩ := map_eq_some_iff.1 h
    cases hs
    have hkeeps : KeepsMtu True _ _ := netchanTransmit_keeps hrun hmin
    exact ⟨hkeeps.min, hkeeps.max, fun hbounds => iff_of_true (hkeeps.inBounds trivial hbounds) trivial⟩
  | process forUs st =>
    obtain ⟨⟨okay, _, st'⟩, hrun, hs⟩ := map_eq_some_iff.1 h
    cases hs
    have hsame := netchanProcess_spec hrun
    have hwithin : (process forUs st).Within c ↔ (c.lookedUp forUs st : Int) ≤ c.mtuMax := Iff.rfl
    rw [hwithin]
    unfold Netchan.confirm at hsame
    split at hsame
    · rename_i hlarger
      refine ⟨hsame.min, hsame.max.le, fun hbounds => ?_⟩
      rw [Netchan.InBounds, hsame.min, hsame.cur, hsame.max]
      exact and_iff_right (hbounds.1.trans hlarger.2.le)
    · rename_i hsmaller
      refine ⟨hsame.min, hsame.max.le, fun hbounds => iff_of_true ?_ ?_⟩
      · exact hsame.keeps.inBounds trivial hbounds
      · obtain ⟨hlow, hhigh⟩ := hbounds
        omega
  | alter chan =>
    rw [exec] at h
    split at h
    · rename_i hsame
      cases h
      obtain ⟨hcur, hmin', hmax⟩ := hsame
      refine ⟨hmin', hmax.le, fun hbounds => iff_of_true ?_ trivial⟩
      exact (SameMtu.keeps ⟨hcur, hmin', hmax⟩).inBounds trivial hbounds
    · cases h

end ChanOp

/-- The states of a channel in a run. -/
def chanStates : List ChanOp → Netchan → Option (List Netchan)
  | [], c => some [c]
  | op :: ops, c => (op.exec c).bind fun c' => (chanStates ops c').map (c :: ·)

/-- The packet size stays between its limits, and the upper one does not rise. -/
structure MtuKept (cs : List Netchan) : Prop where
  inBounds : ∀ c ∈ cs, c.InBounds
  falls : cs.Pairwise fun c c' => c'.mtuMax ≤ c.mtuMax

section Runs

variable {ops : List ChanOp} {cs : List Netchan} {c : Netchan}

theorem mem_chanStates (h : chanStates ops c = some cs) : c ∈ cs := by
  cases ops with
  | nil =>
    cases h
    exact List.mem_cons_self
  | cons op ops =>
    obtain ⟨c₁, -, h⟩ := bind_eq_some_iff.1 h
    obtain ⟨cs', -, rfl⟩ := map_eq_some_iff.1 h
    exact List.mem_cons_self

theorem mtuMax_le_of_mem (h : chanStates ops c = some cs) (hmin : 0 ≤ c.mtuMin) :
    ∀ c' ∈ cs, c'.mtuMax ≤ c.mtuMax := by
  induction ops generalizing c cs with
  | nil =>
    cases h
    exact List.forall_mem_singleton.2 (le_refl _)
  | cons op ops ih =>
    obtain ⟨c₁, hexec, h⟩ := bind_eq_some_iff.1 h
    obtain ⟨cs', hrun, rfl⟩ := map_eq_some_iff.1 h
    obtain ⟨hmin', hmax, -⟩ := ChanOp.exec_spec hexec hmin
    refine List.forall_mem_cons.2 ⟨le_refl _, fun c' hmem => ?_⟩
    exact (ih hrun (hmin'.symm ▸ hmin) c' hmem).trans hmax

/-- The run lemma: a channel between its limits stays there exactly while every confirmation is within
the limit. -/
theorem mtuKept_iff (h : chanStates ops c = some cs) (hmin : 0 ≤ c.mtuMin) (hbounds : c.InBounds) :
    MtuKept cs ↔ ∀ p ∈ ops.zip cs, p.1.Within p.2 := by
  induction ops generalizing c cs with
  | nil =>
    cases h
    exact iff_of_true ⟨List.forall_mem_singleton.2 hbounds, List.pairwise_singleton _ _⟩ (by simp)
  | cons op ops ih =>
    have hfalls := mtuMax_le_of_mem h hmin
    obtain ⟨c₁, hexec, h⟩ := bind_eq_some_iff.1 h
    obtain ⟨cs', hrun, rfl⟩ := map_eq_some_iff.1 h
    obtain ⟨hmin', -, hstep⟩ := ChanOp.exec_spec hexec hmin
    have hzip : (∀ p ∈ (op :: ops).zip (c :: cs'), p.1.Within p.2) ↔
        op.Within c ∧ ∀ p ∈ ops.zip cs', p.1.Within p.2 := by
      rw [List.zip_cons_cons, List.forall_mem_cons]
    have hkept : MtuKept (c :: cs') ↔ MtuKept cs' := by
      constructor
      · intro hk
        exact ⟨(List.forall_mem_cons.1 hk.inBounds).2, (List.pairwise_cons.1 hk.falls).2⟩
      · intro hk
        exact ⟨List.forall_mem_cons.2 ⟨hbounds, hk.inBounds⟩,
          List.pairwise_cons.2 ⟨(List.forall_mem_cons.1 hfalls).2, hk.falls⟩⟩
    rw [hzip, hkept, ← hstep hbounds]
    by_cases hbounds₁ : c₁.InBounds
    · rw [and_iff_right hbounds₁, ih hrun (hmin'.symm ▸ hmin) hbounds₁]
    · exact iff_of_false (fun hk => hbounds₁ (hk.inBounds c₁ (mem_chanStates hrun))) fun hw => hbounds₁ hw.1

end Runs

theorem netchanSetup_bounds (realtime : ℚ) (flags : BitVec 32) (adr : Netadr) (qport : Int) (mtu : ℕ) :
    0 ≤ (netchanSetup realtime flags adr qport mtu).mtuMin ∧
      (netchanSetup realtime flags adr qport mtu).InBounds := by
  have hsizes : ∃ size min' : ℕ, (netchanSetup realtime flags adr qport mtu).mtuMin = min (size : Int) min' ∧
        (netchanSetup realtime flags adr qport mtu).mtuCur = size ∧
        (netchanSetup realtime flags adr qport mtu).mtuMax = size :=
    ⟨_, _, rfl, rfl, rfl⟩
  obtain ⟨size, min', hmin, hcur, hmax⟩ := hsizes
  unfold Netchan.InBounds
  rw [hmin, hcur, hmax]
  omega

/-- **The path MTU.** In every run of a channel from `Netchan_Setup` on, whatever `NET_SendPacket`
answers, the packet size is between its limits in every state and the upper limit never rises, exactly
if every size that a confirmation looks up is within the limit. -/
theorem mtu_bounds {realtime : ℚ} {flags : BitVec 32} {adr : Netadr} {qport : Int} {mtu : ℕ} {ops : List ChanOp}
    {cs : List Netchan} (h : chanStates ops (netchanSetup realtime flags adr qport mtu) = some cs) :
    MtuKept cs ↔ ∀ p ∈ ops.zip cs, p.1.Within p.2 := by
  obtain ⟨hmin, hbounds⟩ := netchanSetup_bounds realtime flags adr qport mtu
  exact mtuKept_iff h hmin hbounds

section Runs

/-- Calls at the start of time, where `NET_SendPacket` gives these answers. -/
def answering (answers : List Neterr) : SendEnv :=
  { realtime := 0, demoplayback := false, canBytes := 100000, reliable := .sent
    sent := fun n => answers.getD n .sent, junk := fun _ => 0 }

/-- A packet that was received. -/
def received (packet : List QByte) : MsgState :=
  { netMessage := Sizebuf.bufferOf packet 0, other := Sizebuf.bufferOf [] 0, readmsg := .netMessage
    msgBadread := false }

/-- A server's channel over IPv4 and a `net_mtu` of 1450. -/
def plainChannel : Netchan := netchanSetup 0 0 ⟨.ip, .dgram⟩ 0 1450

/-- A packet of the full size, and its confirmation. -/
def confirmedRun : List ChanOp :=
  [.transmit (answering [.sent]) (List.replicate 1442 0), .process true (received [1, 0, 0, 0, 1, 0, 0, 0, 0, 0])]

/-- The same with a second copy of the packet, which is refused. -/
def refusedRun : List ChanOp :=
  [.alter { plainChannel with dupe := 1 }, .transmit (answering [.sent, .mtu]) (List.replicate 1442 0),
    .process true (received [1, 0, 0, 0, 1, 0, 0, 0, 0, 0])]

theorem mtu_bounds_confirmed : ∃ cs, chanStates confirmedRun plainChannel = some cs ∧ MtuKept cs := by
  have hrun : (chanStates confirmedRun plainChannel).map
      (fun cs => (confirmedRun.zip cs).all fun p => p.1.Within p.2) = some true := by
    decide +kernel
  obtain ⟨cs, hcs, hall⟩ := Option.map_eq_some_iff.1 hrun
  refine ⟨cs, hcs, (mtu_bounds hcs).2 fun p hp => ?_⟩
  exact of_decide_eq_true (List.all_eq_true.1 hall p hp)

/-- The first copy of a packet goes out and the second does not: the limit falls below the size of the
packet, and the confirmation of the first copy puts the packet size above it. -/
theorem mtu_exceeds : ∃ cs, chanStates refusedRun plainChannel = some cs ∧ ¬MtuKept cs := by
  have hrun : (chanStates refusedRun plainChannel).map (fun cs => cs.all fun c => c.InBounds) = some false := by
    decide +kernel
  obtain ⟨cs, hcs, hall⟩ := Option.map_eq_some_iff.1 hrun
  refine ⟨cs, hcs, fun hkept => ?_⟩
  rw [List.all_eq_true.2 fun c hc => decide_eq_true (hkept.inBounds c hc)] at hall
  cases hall

end Runs

end FteQuake
