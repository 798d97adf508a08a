import FteQuake.Lib.AlternatingBit
import FteQuake.Net.Netchan

/-!
# Reliable messages of a network channel
-/

namespace FteQuake

open Option (bind_eq_some_iff)

/-- What of a channel its reliable messages rest on. -/
structure Control where
  isnqprotocol : Bool
  remoteAddress : Netadr
  incomingSequence : BitVec 32
  incomingAcknowledged : BitVec 32
  incomingReliableAcknowledged : BitVec 32
  incomingReliableSequence : BitVec 32
  outgoingSequence : BitVec 32
  reliableSequence : BitVec 32
  lastReliableSequence : BitVec 32
  reliableLength : ℕ
  reliableBuf : Mem QByte

/-- `Netchan.acknowledge` on it. -/
def Control.acknowledge (info : PacketInfo) (k : Control) : Control :=
  let k := if info.reliableAck = k.reliableSequence then { k with reliableLength := 0 } else k
  if info.oobReliable then k
  else
    { k with
      incomingSequence := info.number
      incomingAcknowledged := info.ack
      incomingReliableAcknowledged := info.reliableAck
      incomingReliableSequence :=
        if info.reliableMessage ≠ 0 then k.incomingReliableSequence ^^^ 1 else k.incomingReliableSequence }

namespace Netchan

def control (c : Netchan) : Control :=
  ⟨c.isnqprotocol, c.remoteAddress, c.incomingSequence, c.incomingAcknowledged, c.incomingReliableAcknowledged,
    c.incomingReliableSequence, c.outgoingSequence, c.reliableSequence, c.lastReliableSequence, c.reliableLength,
    c.reliableBuf⟩

/-- The header as it is read, where it is not swapped for STUN. -/
def plainWords (c : Netchan) : Bool → BitVec 32 × BitVec 32 := ({ c with flags := 0 } : Netchan).headerWords

theorem plainWords_eq (c : Netchan) (rel : Bool) : c.plainWords rel =
    (c.outgoingSequence ||| (if rel then 1 else 0 : BitVec 32) <<< 31,
      c.incomingSequence ||| c.incomingReliableSequence <<< 31) := by
  cases rel <;> simp [plainWords, headerWords, stunaware]

/-- The control behind the next packet. -/
def numbered (c : Netchan) (sendReliable : Bool) : Control :=
  { c.control with
    outgoingSequence := c.outgoingSequence + 1
    lastReliableSequence := if sendReliable then c.outgoingSequence + 1 else c.lastReliableSequence }

variable {c c' : Netchan} {env : SendEnv} {data : List QByte} {send send' : Sizebuf} {sendReliable : Bool}
  {mtuseq cursize : ℕ}

theorem forgetSizes_control (rounds : ℕ) (c : Netchan) : (forgetSizes rounds c).control = c.control := by
  induction rounds generalizing c with
  | zero => rfl
  | succ rounds ih => exact ih _

theorem beginPacket_control (h : c.beginPacket env sendReliable = some (c', mtuseq, send)) :
    c'.control = { c.control with outgoingSequence := c.outgoingSequence + 1 } := by
  obtain ⟨⟨_, s⟩, -, h⟩ := bind_eq_some_iff.1 h
  cases h
  have hforget := forgetSizes_control ((c.outgoingSequence - c.outgoingSequenceLast) &&& 63).toNat c
  exact congrArg (fun k : Control => { k with outgoingSequence := k.outgoingSequence + 1 }) hforget

theorem resetMtu_control (c : Netchan) : c.resetMtu.control = c.control := by
  unfold resetMtu
  split <;> rfl

theorem packReliable_control {r : Option Sizebuf} (h : c.packReliable send = some (c', r)) :
    c'.control = match r with
      | none => { c.control with outgoingSequence := c.outgoingSequence - 1 }
      | some _ => { c.control with lastReliableSequence := c.outgoingSequence } := by
  unfold packReliable at h
  split at h
  · cases h
    rfl
  · obtain ⟨⟨_, s⟩, -, h⟩ := bind_eq_some_iff.1 h
    cases h
    dsimp only
    split
    · exact resetMtu_control { c with lastReliableSequence := c.outgoingSequence }
    · rfl

theorem packProbe_control {probe : Bool} (h : c.packProbe env sendReliable send = some (c', send', probe)) :
    c'.control = c.control := by
  unfold packProbe at h
  dsimp only at h
  split at h
  all_goals
    split at h
    · split at h
      · obtain ⟨⟨_, s⟩, -, h⟩ := bind_eq_some_iff.1 h
        cases h
        rfl
      · cases h
        rfl
    · cases h
      rfl

theorem sendVanilla_control (dupes : Int) : (c.sendVanilla env dupes mtuseq cursize).1.control = c.control := by
  unfold sendVanilla
  dsimp only
  split <;> rfl

theorem sendFragment_control (env : SendEnv) (mtuseq count : ℕ) (offset fragbytes : Int) (s : Fragments) :
    (sendFragment env mtuseq offset fragbytes count s).1.chan.control = s.chan.control := by
  induction count generalizing s with
  | zero => rfl
  | succ count ih =>
    rw [sendFragment]
    split
    · rfl
    · dsimp only
      split
      · rfl
      · exact ih _

theorem sendFragments_control {dupes offset : Int} {s t : Fragments}
    (h : sendFragments env dupes mtuseq cursize offset s = some t) : t.chan.control = s.chan.control := by
  have hone {offset fragbytes : Int} {s u : Fragments} {again : Bool}
      (hcut : sendFragment env mtuseq offset fragbytes (dupes + 1).toNat s = (u, again)) :
      u.chan.control = s.chan.control := by
    simpa only [hcut] using sendFragment_control env mtuseq (dupes + 1).toNat offset fragbytes s
  fun_induction sendFragments env dupes mtuseq cursize offset s with
  | case1 offset s cut u hcut ih => exact (ih h).trans (hone hcut)
  | case2 offset s cut u hcut hmore hoffset ih => exact (ih h).trans (hone hcut)
  | case3 => cases h
  | case4 offset s cut u hcut hmore =>
    cases h
    exact hone hcut

theorem sendDatagrams_control {probe : Bool} {e : Neterr} {bytes : Int}
    (h : c.sendDatagrams env mtuseq probe cursize = some (c', e, bytes)) : c'.control = c.control := by
  unfold sendDatagrams at h
  split at h
  · cases h
    rfl
  · dsimp only at h
    split at h
    · have hvanilla := @sendVanilla_control c env mtuseq cursize (min c.dupe (max 0 env.canBytes / cursize))
      rwa [Option.some.inj h] at hvanilla
    · obtain ⟨s, hrun, hs⟩ := Option.map_eq_some_iff.1 h
      cases hs
      exact sendFragments_control hrun

theorem finishPacket_control {bytes : Int} (haddr : netAddrIsReliable c.remoteAddress = false)
    (h : c.finishPacket env data sendReliable mtuseq send = some (c', bytes)) : c'.control = c.control := by
  unfold finishPacket at h
  dsimp only at h
  obtain ⟨s₁, -, h⟩ := bind_eq_some_iff.1 h
  obtain ⟨⟨c₂, s₂, probe⟩, hprobe, h⟩ := bind_eq_some_iff.1 h
  obtain ⟨s₃, -, h⟩ := bind_eq_some_iff.1 h
  obtain ⟨⟨c₃, e, sent⟩, hsend, h⟩ := bind_eq_some_iff.1 h
  have hall := (sendDatagrams_control hsend).trans (packProbe_control hprobe)
  have hc : c₃.control = c.control := by
    rw [hall]
    split
    · exact resetMtu_control c
    · rfl
  have haddr₃ : c₃.remoteAddress = c.remoteAddress := congrArg Control.remoteAddress hc
  rw [if_neg (by rw [haddr₃, haddr]; exact fun h => absurd h.2.2 Bool.false_ne_true)] at h
  cases h
  exact hc

theorem prot_ne_kexlan {adr : Netadr} (h : netAddrIsReliable adr = false) : adr.prot ≠ .kexlan := by
  intro hkexlan
  rw [netAddrIsReliable, hkexlan] at h
  cases h

/-- A packet may be given up when it overflows, or when its reliable message has no room. -/
theorem netchanTransmit_control {bytes : Int} (hnq : c.isnqprotocol = false)
    (haddr : netAddrIsReliable c.remoteAddress = false) (h : netchanTransmit env data c = some (c', bytes)) :
    if c.message.overflowed then c'.control = c.control
    else c'.control = c.takeReliable.1.control ∨ c'.control = c.takeReliable.1.numbered c.takeReliable.2 := by
  unfold netchanTransmit at h
  rw [if_neg (by rw [hnq]; exact Bool.false_ne_true)] at h
  split at h
  · rename_i hover
    cases h
    exact (if_pos hover).symm ▸ rfl
  · rename_i hover
    rw [if_neg hover]
    have htake : netAddrIsReliable c.takeReliable.1.remoteAddress = false := by
      unfold takeReliable
      dsimp only
      split <;> exact haddr
    have hprot := prot_ne_kexlan htake
    generalize c.takeReliable = r at h hprot htake ⊢
    obtain ⟨t, rel⟩ := r
    simp only [hprot, false_and, and_false, decide_false, Bool.false_eq_true, if_false, Bool.not_false, Bool.and_true,
      Option.bind_eq_bind, Option.bind_some] at h
    obtain ⟨⟨c₂, mtuseq, send⟩, hbegin, h⟩ := bind_eq_some_iff.1 h
    obtain ⟨⟨c₃, r⟩, hpack, h⟩ := bind_eq_some_iff.1 h
    have hnumber := beginPacket_control hbegin
    have hnext : c₂.outgoingSequence = t.outgoingSequence + 1 := congrArg Control.outgoingSequence hnumber
    have hfinish {r : Sizebuf} (hr : c₃.control = t.numbered rel)
        (h : c₃.finishPacket env data rel mtuseq r = some (c', bytes)) : c'.control = t.numbered rel := by
      have haddr : c₃.remoteAddress = t.remoteAddress := congrArg Control.remoteAddress hr
      exact (finishPacket_control (haddr ▸ htake) h).trans hr
    cases rel with
    | false =>
      cases hpack
      exact .inr (hfinish hnumber h)
    | true =>
      have hpack := packReliable_control hpack
      cases r with
      | none =>
        cases h
        exact .inl (hpack.trans (by rw [hnumber, hnext, BitVec.add_sub_cancel]; rfl))
      | some send => exact .inr (hfinish (hpack.trans (by rw [hnumber, hnext]; rfl)) h)

theorem acknowledge_control (c : Netchan) (info : PacketInfo) :
    (c.acknowledge info).control = c.control.acknowledge info := by
  by_cases hack : info.reliableAck = c.reliableSequence <;> by_cases hoob : info.oobReliable = true <;>
    simp [acknowledge, Control.acknowledge, control, hack, hoob]

theorem takeFragment_control (info : PacketInfo) (c : Netchan) (st : MsgState) :
    (c.takeFragment info st).2.1.control = c.control := by
  unfold takeFragment
  dsimp only
  repeat' split
  all_goals rfl

theorem netchanProcess_control {okay : Bool} {st st' : MsgState} (h : netchanProcess true c st = some (okay, c', st')) :
    if okay then ∃ info st₁, c.readHeader.run st = some (some info, st₁) ∧ c.wanted info = true ∧
      c'.control = c.control.acknowledge info
    else c'.control = c.control := by
  unfold netchanProcess at h
  rw [if_neg (by decide)] at h
  obtain ⟨⟨header, st₁⟩, hread, h⟩ := bind_eq_some_iff.1 h
  cases header with
  | none =>
    cases h
    rfl
  | some info =>
    dsimp only at h
    split at h
    · rename_i hwanted
      have hconfirm (size : ℕ) : (c.confirm size).control = c.control := by
        unfold confirm
        split <;> rfl
      have hsame := (takeFragment_control info _ st₁).trans (hconfirm (c.confirmedSize info))
      split at h
      · rename_i k st₂ hfragment
        cases h
        rwa [hfragment] at hsame
      · rename_i k st₂ hfragment
        obtain ⟨st₃, -, h⟩ := bind_eq_some_iff.1 h
        cases h
        rw [hfragment] at hsame
        exact ⟨info, st₁, hread, hwanted, (acknowledge_control k info).trans (congrArg (·.acknowledge info) hsame)⟩
    · cases h
      rfl

end Netchan

/-! ## Two channels -/

open AlternatingBit Netchan List

/-- A packet as the other side reads it, the reliable message in it, and how many its sender had got. -/
structure Datagram where
  sequence : BitVec 32
  sequenceAck : BitVec 32
  reliable : Option (List QByte)
  count : ℕ

/-- A channel with the reliable messages that it took from `message` and that it got, the number of them that the
other side told of in the last packet that was accepted, and the packets that were sent. -/
structure Endpoint where
  chan : Netchan
  taken : List (List QByte)
  got : List (List QByte)
  told : ℕ
  sent : List Datagram

/-- What an endpoint does: the game changes `message`, a packet is sent, or the packet of index `i` of those that
the other side sent arrives, whole or in part, as what `st` holds. -/
inductive NetAct
  | write (message : Sizebuf)
  | transmit (env : SendEnv) (data : List QByte)
  | process (i : ℕ) (st : MsgState)

namespace Endpoint

variable (x y : Endpoint)

/-- A message may be taken. -/
def take : Endpoint :=
  let c := x.chan.takeReliable.1
  { x with
    chan := c
    taken :=
      if c.reliableSequence = x.chan.reliableSequence then x.taken
      else x.taken ++ [c.reliableBuf.slice 0 c.reliableLength] }

/-- The next packet is sent. -/
def emit (sendReliable : Bool) (c : Netchan) : Endpoint :=
  { x with
    chan := c
    sent :=
      { sequence := (x.chan.plainWords sendReliable).1
        sequenceAck := (x.chan.plainWords sendReliable).2
        reliable := if sendReliable then some (x.chan.reliableBuf.slice 0 x.chan.reliableLength) else none
        count := x.got.length } :: x.sent }

def accept (d : Datagram) (c : Netchan) : Endpoint :=
  { x with chan := c, got := x.got ++ d.reliable.toList, told := d.count }

/-- Whether `st` holds a packet with the header of `d`. -/
def Reads (st : MsgState) (d : Datagram) : Prop :=
  ((x.chan.readHeader.run st).bind Prod.fst).map (fun info => (info.sequence, info.sequenceAck)) =
    some (d.sequence, d.sequenceAck)

instance (st : MsgState) (d : Datagram) : Decidable (x.Reads st d) := inferInstanceAs (Decidable (_ = _))

/-- A call that ends the program changes nothing. -/
def act : NetAct → Endpoint
  | .write message => { x with chan := { x.chan with message } }
  | .transmit env data =>
    match netchanTransmit env data x.chan with
    | some (c, _) =>
      if x.chan.message.overflowed then { x with chan := c }
      -- there was no room for the reliable message
      else if c.outgoingSequence = x.chan.outgoingSequence then { x.take with chan := c }
      else x.take.emit x.chan.takeReliable.2 c
    | none => x
  | .process i st =>
    match y.sent[i]?, netchanProcess true x.chan st with
    | some d, some (okay, c, _) =>
      if x.Reads st d then if okay then x.accept d c else { x with chan := c } else x
    | _, _ => x

/-! ### The abstract side -/

/-- A number modulo two, as the sequence of reliable messages is sent. -/
def bit (n : ℕ) : BitVec 32 := BitVec.ofNat 32 (n % 2)

def packet (d : Datagram) : Packet (List QByte) :=
  ⟨(d.sequence &&& 0x7fffffff).toNat, d.reliable, (d.sequenceAck &&& 0x7fffffff).toNat, d.count⟩

def side (k : Control) : Side (List QByte) :=
  { next := k.outgoingSequence.toNat, seen := k.incomingSequence.toNat, acked := k.incomingAcknowledged.toNat
    told := x.told, last := k.lastReliableSequence.toNat, taken := x.taken, got := x.got, sent := x.sent.map packet }

def state : Side (List QByte) := x.side x.chan.control

/-- How a channel goes with what was recorded of it. -/
structure Linked (k : Control) : Prop where
  nq : k.isnqprotocol = false
  addr : netAddrIsReliable k.remoteAddress = false
  taken : k.reliableSequence = bit x.taken.length
  got : k.incomingReliableSequence = bit x.got.length
  told : k.incomingReliableAcknowledged = bit x.told
  busy : k.reliableLength = 0 ↔ x.told = x.taken.length
  buf : x.told ≠ x.taken.length → x.taken.getLast? = some (k.reliableBuf.slice 0 k.reliableLength)
  next : k.outgoingSequence.toNat = x.sent.length + 1
  last : k.lastReliableSequence.toNat ≤ k.outgoingSequence.toNat
  sent : ∀ d ∈ x.sent, d.sequenceAck >>> 31 = bit d.count ∧ (d.sequence >>> 31 ≠ 0 ↔ d.reliable.isSome)

theorem word_spec {s b : BitVec 32} (hs : s.toNat < 2 ^ 31) (hb : b = 0 ∨ b = 1) :
    (s ||| b <<< 31) &&& 0x7fffffff = s ∧ (s ||| b <<< 31) >>> 31 = b := by
  have hor : (s ||| b <<< 31).toNat = s.toNat + b.toNat * 2 ^ 31 := by
    rcases hb with rfl | rfl
    · simp
    · rw [BitVec.toNat_or, Nat.or_comm]
      exact (Nat.two_pow_add_eq_or_of_lt hs 1).symm.trans (Nat.add_comm _ _)
  constructor
  · apply BitVec.eq_of_toNat_eq
    rw [BitVec.toNat_and, hor]
    change _ &&& (2 ^ 31 - 1) = _
    rw [Nat.and_two_pow_sub_one_eq_mod]
    omega
  · apply BitVec.eq_of_toNat_eq
    rw [BitVec.toNat_ushiftRight, hor, Nat.shiftRight_eq_div_pow]
    omega

theorem toNat_lt_of_toInt_lt {s t : BitVec 32} (ht : t.toNat < 2 ^ 31) (hs : s.toNat < 2 ^ 31)
    (h : s.toInt < t.toInt) : s.toNat < t.toNat := by
  rw [BitVec.toInt_eq_toNat_of_lt (by omega), BitVec.toInt_eq_toNat_of_lt (by omega)] at h
  omega

theorem bit_inj {m n : ℕ} : bit m = bit n ↔ m % 2 = n % 2 := by
  rw [bit, bit, ← BitVec.toNat_inj, BitVec.toNat_ofNat, BitVec.toNat_ofNat]
  omega

theorem bit_cases (n : ℕ) : bit n = 0 ∨ bit n = 1 :=
  (Nat.mod_two_eq_zero_or_one n).imp (congrArg (BitVec.ofNat 32)) (congrArg (BitVec.ofNat 32))

theorem bit_succ (n : ℕ) : bit (n + 1) = bit n ^^^ 1 := by
  rcases Nat.mod_two_eq_zero_or_one n with h | h <;> rw [bit, bit, Nat.add_mod, h] <;> rfl

variable {x y} {c : Netchan}

theorem with_chan (h : x.Linked x.chan.control) (hc : c.control = x.chan.control) :
    ({ x with chan := c } : Endpoint).Linked c.control ∧ ({ x with chan := c } : Endpoint).state = x.state := by
  rw [state, hc]
  exact ⟨{ h with }, rfl⟩

/-- A message is taken when there is none on its way; else the last one may be sent again. -/
theorem take_spec (h : x.Linked x.chan.control) :
    x.take.Linked x.take.chan.control ∧
      (x.told = x.taken.length ∧ x.chan.takeReliable.2 = true ∧ x.take.state =
          x.state.take (x.take.chan.reliableBuf.slice 0 x.take.chan.reliableLength) ∨
        x.take = x ∧ (x.chan.takeReliable.2 = true → x.told ≠ x.taken.length ∧
          x.chan.lastReliableSequence.toInt < x.chan.incomingAcknowledged.toInt)) := by
  have htaken : x.chan.reliableSequence = bit x.taken.length := h.taken
  by_cases hnew : x.chan.reliableLength = 0 ∧ x.chan.message.cursize ≠ 0
  · have htold : x.told = x.taken.length := h.busy.1 hnew.1
    have hne : x.chan.reliableSequence ^^^ 1 ≠ x.chan.reliableSequence := by
      rw [htaken, ← bit_succ, Ne, bit_inj]
      omega
    have hr : x.chan.takeReliable = ({ x.chan with
        reliableBuf := x.chan.reliableBuf.blit 0 x.chan.message.contents
        reliableLength := x.chan.message.cursize
        message := { x.chan.message with cursize := 0 }
        reliableSequence := x.chan.reliableSequence ^^^ 1
        mtuResends := 0 }, true) := by rw [takeReliable, if_pos hnew]
    rw [take, hr, if_neg hne]
    refine ⟨{ h with taken := ?_, busy := ?_, buf := fun _ => getLast?_concat }, .inl ⟨htold, rfl, rfl⟩⟩
    · simp [Netchan.control, htaken, bit_succ]
    · simp [Netchan.control, hnew.2, htold]
  · have htake : x.take = x := by rw [take, takeReliable, if_neg hnew, if_pos rfl]
    rw [htake]
    refine ⟨h, .inr ⟨rfl, fun hagain => ?_⟩⟩
    rw [takeReliable, if_neg hnew] at hagain
    obtain ⟨hlast, hne⟩ := of_decide_eq_true hagain
    refine ⟨fun htold => hne ?_, hlast⟩
    rw [htaken, ← htold]
    exact h.told

/-- A packet is sent, with the reliable message when `rel`. -/
theorem emit_spec (h : x.Linked x.chan.control) (hsent : x.sent.length < 2 ^ 30)
    (hin : x.chan.incomingSequence.toNat < 2 ^ 31) {rel : Bool} (hc : c.control = x.chan.numbered rel) :
    (x.emit rel c).Linked c.control ∧ (x.emit rel c).state = x.state.emit
      (if rel then some (x.chan.reliableBuf.slice 0 x.chan.reliableLength) else none) := by
  have hout : x.chan.outgoingSequence.toNat = x.sent.length + 1 := h.next
  have hnext : (x.chan.outgoingSequence + 1).toNat = x.chan.outgoingSequence.toNat + 1 := by
    rw [BitVec.toNat_add]
    exact Nat.mod_eq_of_lt (by simp only [BitVec.reduceToNat]; omega)
  obtain ⟨hnum, hflag⟩ := word_spec (b := if rel then 1 else 0) (s := x.chan.outgoingSequence) (by omega)
    (by cases rel <;> simp)
  have hgot : x.chan.incomingReliableSequence = bit x.got.length := h.got
  obtain ⟨hack, hbit⟩ := word_spec hin (bit_cases x.got.length)
  rw [state, show (x.emit rel c).chan.control = _ from hc, hc]
  constructor
  · refine { h with next := hnext.trans (congrArg (· + 1) hout), last := ?_, sent := ?_ }
    · have hlast : x.chan.lastReliableSequence.toNat ≤ x.chan.outgoingSequence.toNat := h.last
      simp only [numbered, hnext]
      split <;> omega
    · rintro d (_ | ⟨_, hd⟩)
      · refine ⟨by rw [plainWords_eq, hgot]; exact hbit, ?_⟩
        rw [plainWords_eq, hflag]
        cases rel <;> simp
      · exact h.sent d hd
  · simp only [state, side, emit, Side.emit, map_cons, packet, plainWords_eq, hnum, hgot, hack, numbered, hnext,
      apply_ite BitVec.toNat]
    cases rel <;> rfl

/-- A packet is accepted. Its bit tells how many messages have come, as that is `told` or one more. -/
theorem accept_spec (h : x.Linked x.chan.control) (hdir : Dir x.state y.state)
    (hy : y.Linked y.chan.control) {d : Datagram} (hd : d ∈ y.sent) {info : PacketInfo}
    (hinfo : (info.sequence, info.sequenceAck) = (d.sequence, d.sequenceAck)) (hwanted : x.chan.wanted info = true)
    (hc : c.control = x.chan.control.acknowledge info) :
    (x.accept d c).Linked c.control ∧
      Step y.state x.state (x.accept d c).state := by
  obtain ⟨hs, ha⟩ := Prod.mk.inj hinfo
  obtain ⟨hcount, hrel⟩ := hy.sent d hd
  have hoob : info.oobReliable = false := by
    by_contra hoob
    rw [wanted, if_pos (by simpa using hoob)] at hwanted
    exact Bool.false_ne_true (h.addr.symm.trans hwanted)
  have hnew : x.chan.incomingSequence.toNat < (packet d).num := by
    have hprot : x.chan.remoteAddress.prot ≠ .kexlan := prot_ne_kexlan h.addr
    have hlt : x.chan.incomingSequence < info.number := by
      simpa [wanted, hoob, hprot] using hwanted
    rwa [packet, ← hs]
  have hmem : packet d ∈ y.state.sent := mem_map_of_mem hd
  have htold : x.told ≤ d.count := hdir.told_mono _ hmem hnew
  have hle : d.count ≤ x.taken.length := (hdir.count_le _ hmem).trans hdir.got_prefix.length_le
  have hone : x.taken.length ≤ x.told + 1 := hdir.taken_le
  have hack : info.reliableAck = bit d.count := by rw [PacketInfo.reliableAck, ha, hcount]
  have hbit : info.reliableAck = x.chan.control.reliableSequence ↔ d.count = x.taken.length := by
    rw [hack, h.taken, bit_inj]
    omega
  have hmsg : (if info.reliableMessage ≠ 0 then x.chan.incomingReliableSequence ^^^ 1
      else x.chan.incomingReliableSequence) = bit (x.got ++ d.reliable.toList).length := by
    have hgot : x.chan.incomingReliableSequence = bit x.got.length := h.got
    rw [PacketInfo.reliableMessage, hs, hgot, ← bit_succ]
    cases hd : d.reliable with
    | none => rw [if_neg fun hne => by simpa [hd] using hrel.1 hne, Option.toList_none, append_nil]
    | some m => rw [if_pos (hrel.2 (by simp [hd])), Option.toList_some, length_append, length_singleton]
  have hside : (x.accept d c).state = x.state.accept (packet d) := by
    rw [state, show (x.accept d c).chan.control = _ from hc]
    by_cases hdone : info.reliableAck = x.chan.reliableSequence <;>
      simp [state, side, accept, Side.accept, packet, Control.acknowledge, Netchan.control, hoob, hdone, PacketInfo.number,
        PacketInfo.ack, hs, ha]
  refine ⟨?_, hside ▸ .accept _ hmem hnew⟩
  rw [hc]
  by_cases hdone : d.count = x.taken.length
  · rw [Control.acknowledge, if_pos (hbit.2 hdone), hoob, if_neg Bool.false_ne_true]
    exact { h with got := hmsg, told := hack, busy := iff_of_true rfl hdone, buf := fun hne => absurd hdone hne }
  · rw [Control.acknowledge, if_neg (hdone ∘ hbit.1), hoob, if_neg Bool.false_ne_true]
    have hbusy : x.told ≠ x.taken.length := by omega
    exact { h with got := hmsg, told := hack, buf := fun _ => h.buf hbusy
                   busy := iff_of_false (fun hlen => hbusy (h.busy.1 hlen)) hdone }

theorem takeReliable_sequences (c : Netchan) : c.takeReliable.1.outgoingSequence = c.outgoingSequence ∧
    c.takeReliable.1.incomingSequence = c.incomingSequence := by
  unfold takeReliable
  dsimp only
  split <;> exact ⟨rfl, rfl⟩

theorem sent_length_le (x y : Endpoint) (a : NetAct) : x.sent.length ≤ (x.act y a).sent.length := by
  unfold act
  repeat' split
  all_goals first
    | exact le_rfl
    | exact Nat.le_succ _

end Endpoint

open Endpoint

/-- Two endpoints go together. -/
structure Joined (x y : Endpoint) : Prop where
  left : x.Linked x.chan.control
  right : y.Linked y.chan.control
  there : Dir x.state y.state
  back : Dir y.state x.state

namespace Joined

variable {x y : Endpoint}

theorem symm (h : Joined x y) : Joined y x := ⟨h.right, h.left, h.back, h.there⟩

theorem of_step (h : Joined x y) {x' : Endpoint} (hx : x'.Linked x'.chan.control)
    (hstep : x'.state = x.state ∨ Step y.state x.state x'.state) : Joined x' y := by
  rcases hstep with heq | hstep
  · exact ⟨hx, h.right, heq ▸ h.there, heq ▸ h.back⟩
  · exact ⟨hx, h.right, h.there.sender hstep, h.back.receiver h.there hstep⟩

theorem transmit (h : Joined x y) (hsent : x.sent.length < 2 ^ 30) (hsent' : y.sent.length < 2 ^ 30)
    (env : SendEnv) (data : List QByte) : Joined (x.act y (.transmit env data)) y := by
  rw [act]
  cases hrun : netchanTransmit env data x.chan with
  | none => exact h
  | some r =>
    obtain ⟨c, bytes⟩ := r
    have hc := netchanTransmit_control h.left.nq h.left.addr hrun
    obtain ⟨hlinked, htake⟩ := take_spec h.left
    obtain ⟨hout, hin⟩ := takeReliable_sequences x.chan
    dsimp only
    by_cases hover : x.chan.message.overflowed = true
    · rw [if_pos hover] at hc ⊢
      obtain ⟨hlinked, hstate⟩ := with_chan h.left hc
      exact h.of_step hlinked (.inl hstate)
    rw [if_neg hover] at hc ⊢
    rcases hc with hc | hc
    · have hsame : c.outgoingSequence = x.chan.outgoingSequence := (congrArg Control.outgoingSequence hc).trans hout
      rw [if_pos hsame]
      obtain ⟨hlinked, hstate⟩ := with_chan hlinked hc
      refine h.of_step hlinked ?_
      rw [hstate]
      rcases htake with ⟨htold, -, htake⟩ | ⟨htake, -⟩
      · exact htake ▸ .inr (.take _ htold)
      · exact .inl (congrArg state htake)
    · have hnext : c.outgoingSequence = x.chan.outgoingSequence + 1 :=
        (congrArg Control.outgoingSequence hc).trans (congrArg (· + 1) hout)
      rw [if_neg (by rw [hnext]; simp)]
      have hseen : x.chan.incomingSequence.toNat < y.chan.outgoingSequence.toNat := h.back.seen_lt
      have hy : y.chan.outgoingSequence.toNat = y.sent.length + 1 := h.right.next
      obtain ⟨hlinked, hstate⟩ := emit_spec hlinked hsent (hin.symm ▸ by omega) hc
      refine h.of_step hlinked (.inr ?_)
      rw [hstate]
      rcases htake with ⟨htold, hrel, htake⟩ | ⟨htake, hagain⟩
      · rw [htake, hrel, if_pos rfl]
        exact .first _ htold
      · rw [htake]
        cases hrel : x.chan.takeReliable.2 with
        | false => exact .plain
        | true =>
          obtain ⟨hbusy, hlast⟩ := hagain hrel
          have hacked : x.chan.incomingAcknowledged.toNat ≤ y.chan.incomingSequence.toNat := h.there.acked_le
          have hseen' : y.chan.incomingSequence.toNat < x.chan.outgoingSequence.toNat := h.there.seen_lt
          have hx : x.chan.outgoingSequence.toNat = x.sent.length + 1 := h.left.next
          have hle : x.chan.lastReliableSequence.toNat ≤ x.chan.outgoingSequence.toNat := h.left.last
          have hlast := toNat_lt_of_toInt_lt (by omega) (by omega) hlast
          exact .again _ hlast hbusy (h.left.buf hbusy)

theorem process (h : Joined x y) (i : ℕ) (st : MsgState) : Joined (x.act y (.process i st)) y := by
  rw [act]
  split
  · rename_i d okay c st' hd hrun
    have hc := netchanProcess_control hrun
    split
    · rename_i hreads
      cases okay with
      | false =>
        obtain ⟨hlinked, hstate⟩ := with_chan h.left hc
        exact h.of_step hlinked (.inl hstate)
      | true =>
        obtain ⟨info, st₁, hread, hwanted, hc⟩ := hc
        rw [Reads, hread] at hreads
        obtain ⟨hlinked, hstep⟩ := accept_spec h.left h.there h.right (mem_of_getElem? hd)
          (Option.some.inj hreads) hwanted hc
        exact h.of_step hlinked (.inr hstep)
    · exact h
  · exact h

theorem act (h : Joined x y) (hsent : x.sent.length < 2 ^ 30) (hsent' : y.sent.length < 2 ^ 30) (a : NetAct) :
    Joined (x.act y a) y := by
  cases a with
  | write message => exact h.of_step { h.left with } (.inl rfl)
  | transmit env data => exact h.transmit hsent hsent' env data
  | process i st => exact h.process i st

end Joined

/-- One of two endpoints acts. -/
def exchange (p : Endpoint × Endpoint) (e : Bool × NetAct) : Endpoint × Endpoint :=
  if e.1 then (p.1, p.2.act p.1 e.2) else (p.1.act p.2 e.2, p.2)

/-- What the reliable messages from `x` to `y` are: in order and once, each known to have come before the buffer
is given to the next. -/
structure Delivers (x y : Endpoint) : Prop where
  got_prefix : y.got <+: x.taken
  taken_le : x.taken.length ≤ y.got.length + 1
  cleared : x.chan.reliableLength = 0 → y.got = x.taken
  held : x.chan.reliableLength ≠ 0 → x.taken.getLast? = some (x.chan.reliableBuf.slice 0 x.chan.reliableLength)

theorem Joined.toDelivers {x y : Endpoint} (h : Joined x y) : Delivers x y where
  got_prefix := h.there.got_prefix
  taken_le := h.there.taken_le.trans (Nat.succ_le_succ h.there.told_le)
  cleared hlen := h.there.eq_of_told (h.left.busy.1 hlen)
  held hlen := h.left.buf (hlen ∘ h.left.busy.2)

/-- The run lemma. -/
theorem joined_run {p : Endpoint × Endpoint} (h : Joined p.1 p.2) (acts : List (Bool × NetAct))
    (hsent : (acts.foldl exchange p).1.sent.length < 2 ^ 30 ∧ (acts.foldl exchange p).2.sent.length < 2 ^ 30) :
    Joined (acts.foldl exchange p).1 (acts.foldl exchange p).2 := by
  induction acts using reverseRecOn with
  | nil => exact h
  | append_singleton acts e ih =>
    rw [foldl_concat] at hsent ⊢
    generalize acts.foldl exchange p = q at hsent ih ⊢
    obtain ⟨right, a⟩ := e
    cases right with
    | false =>
      have hlt := (sent_length_le q.1 q.2 a).trans_lt hsent.1
      exact (ih ⟨hlt, hsent.2⟩).act hlt hsent.2 a
    | true =>
      have hlt := (sent_length_le q.2 q.1 a).trans_lt hsent.2
      exact ((ih ⟨hsent.1, hlt⟩).symm.act hlt hsent.1 a).symm

/-- An endpoint as `Netchan_Setup` leaves it. -/
def endpoint (realtime : ℚ) (flags : BitVec 32) (adr : Netadr) (qport : Int) (mtu : ℕ) : Endpoint :=
  ⟨netchanSetup realtime flags adr qport mtu, [], [], 0, []⟩

theorem linked_endpoint {realtime : ℚ} {flags : BitVec 32} {adr : Netadr} {qport : Int} {mtu : ℕ}
    (h : netAddrIsReliable adr = false) : (endpoint realtime flags adr qport mtu).Linked
      (endpoint realtime flags adr qport mtu).chan.control where
  nq := rfl
  addr := h
  taken := rfl
  got := rfl
  told := rfl
  busy := iff_of_true rfl rfl
  buf := fun hne => absurd rfl hne
  next := rfl
  last := Nat.zero_le _
  sent := nofun

/-- **Reliable messages.** Whatever is written and sent, and however packets are lost, repeated and put out of
order on their way, each side gets the reliable messages that the other one took in their order and once, and
the other one has them until then, while less than 2^30 packets are sent. -/
theorem reliable_delivers {t t' : ℚ} {flags flags' : BitVec 32} {adr adr' : Netadr} {qport qport' : Int}
    {mtu mtu' : ℕ} (hadr : netAddrIsReliable adr = false) (hadr' : netAddrIsReliable adr' = false)
    {acts : List (Bool × NetAct)} {x y : Endpoint}
    (hrun : acts.foldl exchange (endpoint t flags adr qport mtu, endpoint t' flags' adr' qport' mtu') = (x, y))
    (hx : x.sent.length < 2 ^ 30) (hy : y.sent.length < 2 ^ 30) : Delivers x y ∧ Delivers y x := by
  have hjoined := joined_run (p := (endpoint t flags adr qport mtu, endpoint t' flags' adr' qport' mtu'))
    ⟨linked_endpoint hadr, linked_endpoint hadr', Dir.fresh, Dir.fresh⟩ acts (by rw [hrun]; exact ⟨hx, hy⟩)
  rw [hrun] at hjoined
  exact ⟨hjoined.toDelivers, hjoined.symm.toDelivers⟩

/-- A message that comes. -/
theorem reliable_delivers_message :
    let acts := [(false, .write (Sizebuf.bufferOf [1, 2, 3] 0)), (false, .transmit (answering [.sent]) []),
      (true, .process 0 (received [1, 0, 0, 128, 0, 0, 0, 0, 1, 2, 3]))]
    let p := acts.foldl exchange (endpoint 0 0 ⟨.ip, .dgram⟩ 0 1450, endpoint 0 ncfClient ⟨.ip, .dgram⟩ 0 1450)
    p.2.got = [[1, 2, 3]] ∧ Delivers p.1 p.2 ∧ Delivers p.2 p.1 :=
  ⟨by decide +kernel, reliable_delivers rfl rfl rfl (by decide +kernel) (by decide +kernel)⟩

end FteQuake
