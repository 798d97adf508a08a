import FteQuake.Tv.MvdStream

/-!
# Messages of an MVD

What `SV_WriteMVDMessage` wrote comes out of the packet loop of `QTV_Run` again.

The writer abbreviates the type of a packet that goes to whom the last one went, and the proxy takes the
abbreviation for everyone. `mvdStream_framed` is about runs in which only messages for everyone are
abbreviated; `mvdStream_misdirects` about two messages to one player.
-/

namespace FteQuake

open List Option

namespace MvdStream

/-! ## Messages in a stream -/

/-- A message for `SV_WriteMVDMessage` that a proxy can take. -/
def Msg.Valid (m : Msg) : Prop :=
  (m.type = demAll ∨ m.type = demMultiple ∨ (m.type = demSingle ∨ m.type = demStats) ∧ m.target.toNat < 32) ∧
    (m.data.length : ℤ) ≤ maxMsglen

/-- Who a message is for: everyone, or those who follow a player of a mask. -/
def Msg.recipients (m : Msg) : Option (BitVec 32) :=
  if m.type = demAll then none
  else if m.type = demMultiple then some m.target
  else some ((1 : BitVec 32) <<< m.target.toNat)

/-- Who `Multicast` sends to. -/
def Event.recipients (e : Event) : Option (BitVec 32) :=
  if e.target = demMultiple ∨ e.target = demSingle ∨ e.target = demStats then some e.mask else none

/-- Each message has been parsed once, in order and for its recipients. Of `dem_multiple` packets to
nobody, which are for hidden messages, none is parsed once these are known to be used. -/
inductive Delivered (hidden : List Event → Bool) : List Msg → List Event → Prop
  | nil : Delivered hidden [] []
  | parse {ms : List Msg} {events : List Event} {m : Msg} {e : Event} : Delivered hidden ms events →
      e.data = m.data → e.recipients = m.recipients → Delivered hidden (ms ++ [m]) (events ++ [e])
  | skip {ms : List Msg} {events : List Event} {m : Msg} : Delivered hidden ms events →
      hidden events = true → m.recipients = some 0 → Delivered hidden (ms ++ [m]) events

/-- The packet of a message: its type in full, or abbreviated when it is for everyone. -/
def Framed (m : Msg) (packet : List Byte) : Prop :=
  ∃ msec type, packet = msec :: type ++ writeLong (BitVec.ofNat 32 m.data.length) ++ m.data ∧
    (writeType m.type m.target = some type ∨ m.type = demAll ∧ type = [BitVec.ofNat 8 demRead])

theorem long_eq (x : BitVec 32) :
    (x.setWidth 8).setWidth 32 + (((x >>> 8).setWidth 8).setWidth 32 <<< 8)
      + (((x >>> 16).setWidth 8).setWidth 32 <<< 16) + (((x >>> 24).setWidth 8).setWidth 32 <<< 24) = x := by
  apply BitVec.eq_of_toNat_eq
  simp only [BitVec.toNat_add, BitVec.toNat_shiftLeft, BitVec.toNat_setWidth, BitVec.toNat_ushiftRight,
    Nat.shiftLeft_eq, Nat.shiftRight_eq_div_pow]
  have := x.isLt
  omega

theorem longAt_writeLong (front back : List Byte) (x : BitVec 32) :
    longAt (front ++ (writeLong x ++ back)) front.length = some x := by
  have hbyte (k : ℕ) : byteAt (front ++ (writeLong x ++ back)) ((front.length : ℤ) + k)
      = (writeLong x ++ back)[k]? := by
    rw [← Nat.cast_add, byteAt_natCast, List.getElem?_append_right (by omega), Nat.add_sub_cancel_left]
  have hfirst := hbyte 0
  rw [Nat.cast_zero, add_zero] at hfirst
  exact longAt_eq_some.mpr ⟨_, _, _, _, hfirst, hbyte 1, hbyte 2, hbyte 3, long_eq x⟩

section Packet

variable {msec type : Byte} {target data rest : List Byte} {isDemo : Bool}

/-- A packet that is written, field by field. -/
theorem packet_fields (htarget : target.length + 2 = lengthofs (demType type)) (hset : demType type ≠ demSet)
    (hdata : data.length < 2 ^ 31) {packet : List Byte}
    (hpacket : packet = msec :: type :: target ++ writeLong (BitVec.ofNat 32 data.length) ++ data) :
    byteAt packet 1 = some type ∧
      lengthField (packet ++ rest) = some (BitVec.ofNat 32 data.length) ∧
      packetSize (packet ++ rest) = some packet.length ∧
      packetData packet 0 packet.length type = some data ∧ lengthofs (demType type) + 4 ≤ packet.length := by
  have htype (r : List Byte) : byteAt (packet ++ r) 1 = some type := by
    rw [hpacket]
    rfl
  have hlong : longAt (packet ++ rest) (lengthofs (demType type)) = some (BitVec.ofNat 32 data.length) := by
    have := longAt_writeLong (msec :: type :: target) (data ++ rest) (BitVec.ofNat 32 data.length)
    rw [length_cons, length_cons, htarget] at this
    rwa [hpacket, append_assoc, append_assoc]
  have hnat : (BitVec.ofNat 32 data.length).toNat = data.length := by
    rw [BitVec.toNat_ofNat, Nat.mod_eq_of_lt (by omega)]
  have hlength : packet.length = data.length + lengthofs (demType type) + 4 := by
    rw [hpacket, ← htarget]
    simp only [length_append, length_cons, writeLong, length_nil]
    omega
  refine ⟨by simpa using htype [], ?_, ?_, ?_, by omega⟩
  · rw [lengthField, htype, bind_some, if_neg hset, hlong]
  · rw [packetSize, htype, bind_some, if_neg hset, hlong, bind_some, hnat, if_pos hdata, hlength]
  · have := @packetData_eq packet 0 packet.length type (by omega) (by omega)
    rw [Nat.cast_zero, drop_zero, take_length] at this
    rw [this, hpacket, ← htarget]
    have hfront : (msec :: type :: target ++ writeLong (BitVec.ofNat 32 data.length)).length
        = target.length + 2 + 4 := by
      simp [writeLong]
    rw [← hfront, drop_left]

end Packet

theorem demType_eq (c : Byte) : demType c = c.toNat % 8 := by
  rw [demType, BitVec.toNat_and, show (7 : Byte).toNat = 2 ^ 3 - 1 from rfl, Nat.and_two_pow_sub_one_eq_mod]

/-- What the two parsers make of the packet of a message. -/
structure Plays (m : Msg) (packet : List Byte) : Prop where
  field : ∀ rest, lengthField (packet ++ rest) = some (BitVec.ofNat 32 m.data.length)
  size : ∀ rest, packetSize (packet ++ rest) = some packet.length
  early : ∀ isDemo, earlyEvent isDemo packet = none
  loop : ∀ cfg isDemo events,
    (∃ e, loopEvent cfg isDemo events packet = some e ∧ e.data = m.data ∧ e.recipients = m.recipients) ∨
      loopEvent cfg isDemo events packet = none ∧ cfg.hidden events = true ∧ m.recipients = some 0

section Packet

variable {m : Msg} {packet target : List Byte} {msec type : Byte}

theorem Plays.of_fields (hlen : m.data.length < 2 ^ 31)
    (htarget : target.length + 2 = lengthofs (demType type)) (hset : demType type ≠ demSet)
    (hdata : ¬(demType type = demAll ∧ type &&& ~~~7 ≠ 0))
    (hpacket : packet = msec :: type :: target ++ writeLong (BitVec.ofNat 32 m.data.length) ++ m.data)
    (hevent : ∀ hidden isDemo, packetData packet 0 packet.length type = some m.data →
      ∃ event, packetEvent hidden isDemo packet type packet.length = some event ∧
        ((∃ e, event = some e ∧ e.data = m.data ∧ e.recipients = m.recipients) ∨
          event = none ∧ hidden = true ∧ m.recipients = some 0)) : Plays m packet := by
  have hfields (rest : List Byte) := @packet_fields msec type target m.data rest htarget hset hlen packet hpacket
  obtain ⟨htype, -, -, hbytes, -⟩ := hfields []
  refine ⟨fun rest => (hfields rest).2.1, fun rest => (hfields rest).2.2.1, fun isDemo => ?_,
    fun cfg isDemo events => ?_⟩
  · rw [earlyEvent, htype, bind_some, if_neg]
    rintro ⟨hall, hhigh, -⟩
    exact hdata ⟨hall, hhigh⟩
  · obtain ⟨event, hpe, hev⟩ := hevent (cfg.hidden events) isDemo hbytes
    rw [loopEvent, htype, bind_some, if_neg hset, hpe, join_some]
    exact hev

/-- A packet for everyone, of the type `dem_all` or abbreviated. -/
theorem plays_all (hm : m.type = demAll) (hlen : m.data.length < 2 ^ 31)
    (htype : type = BitVec.ofNat 8 demAll ∨ type = BitVec.ofNat 8 demRead)
    (hpacket : packet = msec :: [type] ++ writeLong (BitVec.ofNat 32 m.data.length) ++ m.data) :
    Plays m packet := by
  have hfixed : demType type = demAll ∧ type &&& ~~~7 = 0 ∨ demType type = demRead := by
    rcases htype with rfl | rfl
    · exact .inl ⟨rfl, rfl⟩
    · exact .inr rfl
  have hmultiple : demType type ≠ demMultiple := by
    rcases hfixed with ⟨h, -⟩ | h <;> rw [h] <;> decide
  refine @Plays.of_fields m packet [] msec type hlen ?_ ?_ ?_ hpacket fun hidden isDemo hbytes =>
    ⟨some ⟨m.data, type.toNat, BitVec.allOnes 32⟩, ?_, .inl ⟨_, rfl, rfl, ?_⟩⟩
  · rw [lengthofs, if_neg hmultiple]
    rfl
  · rcases hfixed with ⟨h, -⟩ | h <;> rw [h] <;> decide
  · rintro ⟨hall, hhigh⟩
    rcases hfixed with ⟨-, h⟩ | h
    · exact hhigh h
    · rw [h] at hall
      cases hall
  · rw [packetEvent, hbytes, bind_some, if_neg hmultiple]
    rcases hfixed with ⟨h, hlow⟩ | h
    · rw [h, if_neg (by decide), if_neg (fun hq => hq.2.1 hlow), if_pos (.inl rfl)]
    · rw [h, if_neg (by decide), if_neg (by simp [demRead, demAll]), if_pos (.inr rfl)]
  · rw [Msg.recipients, if_pos hm, Event.recipients, if_neg]
    rcases htype with rfl | rfl <;> simp [demAll, demRead, demMultiple, demSingle, demStats]

theorem plays_multiple (hm : m.type = demMultiple) (hlen : m.data.length < 2 ^ 31)
    (hpacket : packet = msec :: (BitVec.ofNat 8 demMultiple :: writeLong m.target)
      ++ writeLong (BitVec.ofNat 32 m.data.length) ++ m.data) : Plays m packet := by
  have hrecipients : m.recipients = some m.target := by
    rw [Msg.recipients, hm, if_neg (by decide), if_pos rfl]
  refine .of_fields hlen (by rfl) (by decide) (by decide) hpacket fun hidden isDemo hbytes => ?_
  have hlong : longAt packet 2 = some m.target := by
    have := longAt_writeLong [msec, BitVec.ofNat 8 demMultiple]
      (writeLong (BitVec.ofNat 32 m.data.length) ++ m.data) m.target
    rw [hpacket, ← this]
    simp only [cons_append, nil_append, append_assoc]
    rfl
  have hevent : packetEvent hidden isDemo packet (BitVec.ofNat 8 demMultiple) packet.length
      = some (if hidden ∧ m.target = 0 then none else some ⟨m.data, demMultiple, m.target⟩) := by
    rw [packetEvent, hbytes, bind_some, if_pos (by decide), hlong, map_some]
  refine ⟨_, hevent, ?_⟩
  split
  · rename_i hskip
    exact .inr ⟨rfl, hskip.1, by rw [hrecipients, hskip.2]⟩
  · exact .inl ⟨_, rfl, rfl, by rw [hrecipients, Event.recipients, if_pos (.inl rfl)]⟩

theorem plays_player (hm : m.type = demSingle ∨ m.type = demStats) (hplayer : m.target.toNat < 32)
    (hlen : m.data.length < 2 ^ 31)
    (hpacket : packet = msec :: [BitVec.ofNat 8 m.type + (m.target.setWidth 8 <<< 3)]
      ++ writeLong (BitVec.ofNat 32 m.data.length) ++ m.data) : Plays m packet := by
  have hrecipients : m.recipients = some ((1 : BitVec 32) <<< m.target.toNat) := by
    rcases hm with hm | hm <;> rw [Msg.recipients, hm, if_neg (by decide), if_neg (by decide)]
  generalize htype : BitVec.ofNat 8 m.type + (m.target.setWidth 8 <<< 3) = type at hpacket
  have hnat : type.toNat = m.type + 8 * m.target.toNat := by
    rw [← htype, BitVec.toNat_add, BitVec.toNat_shiftLeft, BitVec.toNat_setWidth, BitVec.toNat_ofNat, Nat.shiftLeft_eq]
    rcases hm with hm | hm <;> rw [hm] <;> simp only [demSingle, demStats] <;> omega
  have hdem : demType type = m.type := by
    rw [demType_eq, hnat]
    rcases hm with hm | hm <;> rw [hm] <;> simp only [demSingle, demStats] <;> omega
  have hshift : (type >>> 3).toNat = m.target.toNat := by
    rw [BitVec.toNat_ushiftRight, hnat, Nat.shiftRight_eq_div_pow]
    rcases hm with hm | hm <;> rw [hm] <;> simp only [demSingle, demStats] <;> omega
  have hmultiple : demType type ≠ demMultiple := by
    rcases hm with hm | hm <;> rw [hdem, hm] <;> decide
  refine @Plays.of_fields m packet [] msec type hlen ?_ ?_ ?_ hpacket fun hidden isDemo hbytes =>
    ⟨some ⟨m.data, m.type, (1 : BitVec 32) <<< m.target.toNat⟩, ?_, .inl ⟨_, rfl, rfl, ?_⟩⟩
  · rw [lengthofs, if_neg hmultiple]
    rfl
  · rcases hm with hm | hm <;> rw [hdem, hm] <;> decide
  · rintro ⟨hall, -⟩
    rcases hm with hm | hm <;> rw [hdem, hm] at hall <;> cases hall
  · rw [packetEvent, hbytes, bind_some, if_neg hmultiple, hdem, if_pos hm, hshift]
  · rw [hrecipients, Event.recipients, if_pos (.inr hm)]

theorem Framed.plays (h : Framed m packet) (hv : m.Valid) : Plays m packet := by
  obtain ⟨msec, type, hpacket, htype⟩ := h
  obtain ⟨hkind, hsize⟩ := hv
  have hlen : m.data.length < 2 ^ 31 := by
    unfold maxMsglen at hsize
    omega
  rcases htype with htype | ⟨hm, rfl⟩
  · rcases hkind with hm | hm | ⟨hm, hplayer⟩
    · rw [writeType, if_pos hm] at htype
      cases htype
      exact plays_all hm hlen (.inl rfl) hpacket
    · rw [writeType, hm, if_neg (by decide), if_pos rfl] at htype
      cases htype
      exact plays_multiple hm hlen hpacket
    · have hall : m.type ≠ demAll ∧ m.type ≠ demMultiple := by
        rcases hm with hm | hm <;> rw [hm] <;> decide
      rw [writeType, if_neg hall.1, if_neg hall.2, if_pos hm] at htype
      cases htype
      exact plays_player hm hplayer hlen hpacket
  · exact plays_all hm hlen (.inr rfl) hpacket

end Packet

/-- Calls that write messages, each of which meets `Ok`: `log` is what was written, each message with its
packet. -/
inductive Writes (Ok : Writer → Msg → Prop) : Writer → List (Msg × List Byte) → Prop
  | start (w : Writer) : Writes Ok w []
  | message {w w' : Writer} {log : List (Msg × List Byte)} {msec : Byte} {m : Msg} {packet : List Byte} :
      Writes Ok w log → Ok w m → writeMVDMessage w msec m = some (w', packet) →
      Writes Ok w' (log ++ [(m, packet)])
  | begin {w : Writer} {log : List (Msg × List Byte)} {type size : ℕ} {target : BitVec 32}
      {content : List Byte} : Writes Ok w log → ¬w.mustFlush type target size →
      Writes Ok (w.putDemomsg false type target content) log
  | flush {w w' : Writer} {log : List (Msg × List Byte)} {type size : ℕ} {target : BitVec 32}
      {content packet : List Byte} {msec : Byte} : Writes Ok w log → w.mustFlush type target size →
      Ok w w.demomsg → writeMVDMessage w msec w.demomsg = some (w', packet) →
      Writes Ok (w'.putDemomsg true type target content) (log ++ [(w.demomsg, packet)])

/-- The stream of what was written. -/
def streamOf (log : List (Msg × List Byte)) : List Byte := (log.map Prod.snd).flatten

/-- A message that a proxy can take, and that is for everyone if it goes to whom the last one went. -/
def Distinguished (w : Writer) (m : Msg) : Prop :=
  m.Valid ∧ (w.lasttype = m.type → w.lastto = m.target → m.type = demAll)

theorem writeMVDMessage_framed {w w' : Writer} {msec : Byte} {m : Msg} {packet : List Byte}
    (hok : Distinguished w m) (h : writeMVDMessage w msec m = some (w', packet)) : Framed m packet := by
  obtain ⟨type, htype, heq⟩ := map_eq_some_iff.mp h
  obtain rfl := (Prod.mk.inj heq).2.symm
  refine ⟨msec, type, rfl, ?_⟩
  split at htype
  · exact .inl htype
  · rename_i hsame
    rw [not_or, not_not, not_not] at hsame
    exact .inr ⟨hok.2 hsame.1 hsame.2, (some.inj htype).symm⟩

theorem Writes.plays {w : Writer} {log : List (Msg × List Byte)} (h : Writes Distinguished w log) :
    ∀ x ∈ log, Plays x.1 x.2 ∧ x.1.Valid := by
  induction h with
  | start => simp
  | message _ hok hw ih =>
    intro x hx
    rcases List.mem_append.mp hx with hx | hx
    · exact ih x hx
    · obtain rfl := List.mem_singleton.mp hx
      exact ⟨(writeMVDMessage_framed hok hw).plays hok.1, hok.1⟩
  | begin _ _ ih => exact ih
  | flush _ _ hok hw ih =>
    intro x hx
    rcases List.mem_append.mp hx with hx | hx
    · exact ih x hx
    · obtain rfl := List.mem_singleton.mp hx
      exact ⟨(writeMVDMessage_framed hok hw).plays hok.1, hok.1⟩

section Written

variable {log : List (Msg × List Byte)}

/-- Behind the first `k` messages. -/
def offset (log : List (Msg × List Byte)) (k : ℕ) : ℕ := (streamOf (log.take k)).length

theorem streamOf_append (log log' : List (Msg × List Byte)) :
    streamOf (log ++ log') = streamOf log ++ streamOf log' := by
  simp [streamOf]

theorem drop_offset (log : List (Msg × List Byte)) (k : ℕ) :
    (streamOf log).drop (offset log k) = streamOf (log.drop k) := by
  conv_lhs => rw [← take_append_drop k log, streamOf_append]
  rw [offset, take_append_drop, drop_left]

/-- The packet at the place of a message. -/
theorem drop_offset_lt {k : ℕ} (hk : k < log.length) :
    (streamOf log).drop (offset log k) = (log[k]).2 ++ streamOf (log.drop (k + 1)) ∧
      offset log (k + 1) = offset log k + (log[k]).2.length := by
  constructor
  · rw [drop_offset, drop_eq_getElem_cons hk]
    rfl
  · rw [offset, take_succ_eq_append_getElem hk, streamOf_append, length_append]
    simp [offset, streamOf]

/-- A parser is at the place of a message, or at the end. -/
theorem walk_offset (hplays : ∀ x ∈ log, Plays x.1 x.2 ∧ x.1.Valid) {a : ℕ} (h : Walk (streamOf log) 0 a) :
    ∃ k ≤ log.length, a = offset log k := by
  induction h with
  | refl => exact ⟨0, Nat.zero_le _, by simp [offset, streamOf]⟩
  | tail _ hp ih =>
    obtain ⟨k, hk, rfl⟩ := ih
    obtain ⟨n, hn, rfl, -⟩ := hp
    rcases hk.lt_or_eq with hlt | rfl
    · obtain ⟨hdrop, hnext⟩ := drop_offset_lt hlt
      have hsize := (hplays _ (getElem_mem hlt)).1.size (streamOf (log.drop (k + 1)))
      rw [← hdrop] at hsize
      exact ⟨k + 1, hlt, by rw [hnext, some.inj (hn.symm.trans hsize)]⟩
    · rw [drop_offset, drop_length] at hn
      cases hn

/-- The length that a parser finds in a header is that of a message. -/
theorem lengthField_written (hplays : ∀ x ∈ log, Plays x.1 x.2 ∧ x.1.Valid) {a : ℕ} {l : BitVec 32}
    (h : Walk (streamOf log) 0 a) (hl : lengthField ((streamOf log).drop a) = some l) :
    l.toNat ≤ maxMsglen := by
  obtain ⟨k, hk, rfl⟩ := walk_offset hplays h
  rcases hk.lt_or_eq with hlt | rfl
  · obtain ⟨hdrop, -⟩ := drop_offset_lt hlt
    obtain ⟨hplay, -, hsize⟩ := hplays _ (getElem_mem hlt)
    have hfield := hplay.field (streamOf (log.drop (k + 1)))
    rw [← hdrop] at hfield
    rw [some.inj (hl.symm.trans hfield), BitVec.toNat_ofNat]
    have := Nat.mod_le (log[k]).1.data.length (2 ^ 32)
    omega
  · rw [drop_offset, drop_length] at hl
    cases hl

theorem clean_written (hplays : ∀ x ∈ log, Plays x.1 x.2 ∧ x.1.Valid) : Clean (streamOf log) := by
  intro a ha l hl
  have := lengthField_written hplays ha hl
  unfold maxMsglen at this
  omega

/-- What the packet loop has played is the first messages, each for its recipients. -/
theorem delivered_of_parsed (hplays : ∀ x ∈ log, Plays x.1 x.2 ∧ x.1.Valid) {cfg : Config} {isDemo : Bool}
    {a : ℕ} {events : List Event} (h : Parsed (loopEvent cfg isDemo) (streamOf log) a events) :
    ∃ k ≤ log.length, a = offset log k ∧ Delivered cfg.hidden ((log.take k).map Prod.fst) events := by
  induction h with
  | start => exact ⟨0, Nat.zero_le _, by simp [offset, streamOf], .nil⟩
  | @packet a n events _ hn _ ih =>
    obtain ⟨k, hk, rfl, hdelivered⟩ := ih
    rcases hk.lt_or_eq with hlt | rfl
    · obtain ⟨hdrop, hnext⟩ := drop_offset_lt hlt
      have hplay := (hplays _ (getElem_mem hlt)).1
      have hsize := hplay.size (streamOf (log.drop (k + 1)))
      rw [← hdrop] at hsize
      obtain rfl := some.inj (hn.symm.trans hsize)
      refine ⟨k + 1, hlt, hnext.symm, ?_⟩
      rw [hdrop, take_left, take_succ_eq_append_getElem hlt, map_append, map_singleton]
      rcases hplay.loop cfg isDemo events with ⟨e, he, hdata, hrecipients⟩ | ⟨he, hhidden, hnobody⟩
      · rw [he]
        exact hdelivered.parse hdata hrecipients
      · rw [he, toList_none, append_nil]
        exact hdelivered.skip hhidden hnobody
    · rw [drop_offset, drop_length] at hn
      cases hn

/-- `SV_EarlyParse` parses none of the messages. -/
theorem early_written (hplays : ∀ x ∈ log, Plays x.1 x.2 ∧ x.1.Valid) {isDemo : Bool} {a : ℕ}
    {events : List Event} (h : Parsed (fun _ => earlyEvent isDemo) (streamOf log) a events) : events = [] := by
  induction h with
  | start => rfl
  | @packet a n events hparsed hn _ ih =>
    obtain ⟨k, hk, rfl⟩ := walk_offset hplays hparsed.walk
    rcases hk.lt_or_eq with hlt | rfl
    · obtain ⟨hdrop, -⟩ := drop_offset_lt hlt
      have hplay := (hplays _ (getElem_mem hlt)).1
      have hsize := hplay.size (streamOf (log.drop (k + 1)))
      rw [← hdrop] at hsize
      obtain rfl := some.inj (hn.symm.trans hsize)
      rw [ih, hdrop, take_left, hplay.early isDemo]
      rfl
    · rw [drop_offset, drop_length] at hn
      cases hn

end Written

/-! ## Runs -/

/-- What happens at a proxy: bytes come to its source, `Net_ReadStream`, or the packet loop. -/
inductive Op
  | bytes (b : List Byte)
  | read (arrived : ℕ)
  | run (curtime parsespeed : ℕ)

inductive Step (cfg : Config) : Qtv → Op → Qtv → Prop
  | bytes {q : Qtv} {b : List Byte} : Step cfg q (.bytes b) { q with pending := q.pending ++ b }
  | read {q q' : Qtv} {arrived : ℕ} : q.netReadStream cfg arrived = .done q' → Step cfg q (.read arrived) q'
  | run {q q' : Qtv} {curtime parsespeed fuel : ℕ} : Qtv.packetLoop cfg curtime parsespeed fuel q = .done q' →
      Step cfg q (.run curtime parsespeed) q'

inductive Runs (cfg : Config) (q₀ : Qtv) : List Op → Qtv → Prop
  | nil : Runs cfg q₀ [] q₀
  | snoc {ops : List Op} {op : Op} {q q' : Qtv} : Runs cfg q₀ ops q → Step cfg q op q' →
      Runs cfg q₀ (ops ++ [op]) q'

/-- The bytes that have come. -/
def bytesOf (ops : List Op) : List Byte :=
  ops.flatMap fun
    | .bytes b => b
    | _ => []

/-- The clock does not pass its end in the delay of the packet loop. -/
def Op.Timely (cfg : Config) : Op → Prop
  | .run curtime _ => curtime < addTime curtime cfg.tooslowdelay
  | _ => True

/-- A proxy behind the header of a stream. -/
structure Fresh (q : Qtv) : Prop where
  buffer : q.buffer = []
  pending : q.pending = []
  point : q.forwardpoint = 0
  forwarded : q.forwarded = []
  parsed : q.parsed = []
  early : q.early = []

section Proxy

variable {cfg : Config} {S : List Byte} {c : ℕ} {q q' : Qtv}

theorem Fresh.stands (h : Fresh q) : Stands cfg [] 0 q := by
  refine ⟨h.parsed ▸ .start, .inl ⟨0, ⟨le_rfl, ?_, h.point, Nat.zero_le _, PacketWalk.Walk.refl _,
    h.forwarded ▸ .start, fun _ => h.early, fun _ => h.early ▸ .start⟩, fun _ n hn => ?_⟩⟩
  · rw [h.buffer, h.pending]
    rfl
  · rw [h.buffer] at hn
    cases hn

/-- More bytes come to the source. -/
theorem Stands.append (h : Stands cfg S c q) (b : List Byte) :
    Stands cfg (S ++ b) c { q with pending := q.pending ++ b } := by
  have hc : c ≤ S.length := h.parsed.walk.le_length (Nat.zero_le _)
  have hdrop : (S ++ b).drop c = S.drop c ++ b := drop_append_of_le_length hc
  refine ⟨h.parsed.append b, ?_⟩
  rcases h.buffered with ⟨f, hb, hcaught⟩ | hf
  · refine .inl ⟨f, ⟨?_, ?_, hb.point, hb.point_le, hb.ahead.append b, hb.forwarded.append b, hb.late,
      fun hlate => (hb.early hlate).append b⟩, hcaught⟩
    · rw [length_append]
      omega
    · rw [hdrop, hb.rest, append_assoc]
  · obtain ⟨l, hl, hover⟩ := hf.overlong
    obtain ⟨f, hahead, hforwarded⟩ := hf.forwarded
    obtain ⟨e, he⟩ := hf.early
    exact .inr ⟨⟨l, lengthField_mono (hdrop ▸ prefix_append ..) hl, hover⟩, hf.buffer, hf.point, hf.closed,
      ⟨f, hahead.append b, hforwarded.append b⟩, ⟨e, he.append b⟩⟩

/-- One step: it can be done, and leaves the proxy in a state that stands for what has come. -/
theorem Stands.step {op : Op} (h : Stands cfg S c q) (hclean : Clean S) (htime : op.Timely cfg) :
    (∃ q', Step cfg q op q') ∧ ∀ q', Step cfg q op q' → ∃ c', Stands cfg (S ++ bytesOf [op]) c' q' := by
  cases op with
  | bytes b =>
    refine ⟨⟨_, .bytes⟩, ?_⟩
    rintro _ ⟨⟩
    refine ⟨c, ?_⟩
    rw [bytesOf, flatMap_singleton]
    exact h.append b
  | read arrived =>
    obtain ⟨q₁, hread, hq₁⟩ := h.netReadStream hclean arrived
    refine ⟨⟨q₁, .read hread⟩, ?_⟩
    intro q' hstep
    cases hstep with
    | read hread' =>
      cases hread.symm.trans hread'
      refine ⟨c, ?_⟩
      rwa [bytesOf, flatMap_singleton, append_nil]
  | run curtime parsespeed =>
    constructor
    · rcases @packetLoop_spec cfg S curtime parsespeed hclean htime (S.length - c + 2) c q h with
        ⟨-, hfuel⟩ | ⟨q₁, c', hloop, -⟩
      · omega
      · exact ⟨q₁, .run hloop⟩
    · intro q' hstep
      cases hstep with
      | @run _ _ _ fuel hloop =>
        rcases @packetLoop_spec cfg S curtime parsespeed hclean htime fuel c q h with
          ⟨hout, -⟩ | ⟨q₁, c', hloop', hq₁⟩
        · rw [hout] at hloop
          cases hloop
        · cases hloop.symm.trans hloop'
          refine ⟨c', ?_⟩
          rwa [bytesOf, flatMap_singleton, append_nil]

theorem bytesOf_append (ops ops' : List Op) : bytesOf (ops ++ ops') = bytesOf ops ++ bytesOf ops' := by
  rw [bytesOf, flatMap_append]
  rfl

/-- A run on a clean stream can be done, and leaves the proxy in a state that stands for what has
come. -/
theorem runs_stands (hq : Fresh q) {ops : List Op} (hclean : Clean (bytesOf ops)) (htime : ∀ op ∈ ops, op.Timely cfg) :
    (∃ q', Runs cfg q ops q') ∧ ∀ q', Runs cfg q ops q' → ∃ c, Stands cfg (bytesOf ops) c q' := by
  induction ops using List.reverseRecOn with
  | nil =>
    refine ⟨⟨q, .nil⟩, fun q' hruns => ?_⟩
    generalize hops : ([] : List Op) = ops at hruns
    cases hruns with
    | nil => exact ⟨0, hq.stands⟩
    | snoc => simp at hops
  | append_singleton ops op ih =>
    rw [bytesOf_append] at hclean ⊢
    have hbefore : Clean (bytesOf ops) := hclean.of_isPrefix (prefix_append ..)
    obtain ⟨⟨q₁, hq₁⟩, hstands⟩ := ih hbefore fun o ho => htime o (mem_append_left _ ho)
    have htimely := htime op (mem_append_right _ (mem_singleton_self _))
    constructor
    · obtain ⟨c, hc⟩ := hstands q₁ hq₁
      obtain ⟨⟨q₂, hq₂⟩, -⟩ := hc.step hbefore htimely
      exact ⟨q₂, hq₁.snoc hq₂⟩
    · intro q' hruns
      generalize hops : ops ++ [op] = all at hruns
      cases hruns with
      | nil => simp at hops
      | @snoc ops' op' q₂ _ hruns' hstep =>
        obtain ⟨rfl, hop⟩ := append_inj' hops rfl
        obtain rfl := singleton_injective hop
        obtain ⟨c, hc⟩ := hstands q₂ hruns'
        exact (hc.step hbefore htimely).2 q' hstep

theorem Stands.forwarded (h : Stands cfg S c q) :
    ∃ f, Walk S c f ∧ Forwarded S f q.forwarded ∧ q.forwarded.flatten = S.take f := by
  rcases h.buffered with ⟨f, hb, -⟩ | hf
  · exact ⟨c + f, hb.ahead, hb.forwarded, hb.forwarded.flatten⟩
  · obtain ⟨f, hahead, hforwarded⟩ := hf.forwarded
    exact ⟨f, hahead, hforwarded, hforwarded.flatten⟩

theorem Stands.earlyParsed (h : Stands cfg S c q) :
    ∃ e, Parsed (fun _ => earlyEvent q.isDemo) S e q.early := by
  rcases h.buffered with ⟨f, hb, -⟩ | hf
  · exact hb.earlyParsed
  · exact hf.early

end Proxy

/-- `qtv` when a stream begins. -/
def freshQtv : Qtv := ⟨[], 0, 0, 0, false, false, true, [], [], [], []⟩

/-- The writer when a recording begins. -/
def freshWriter : Writer := ⟨0, 0, ⟨0, 0, []⟩⟩

/-- A proxy that does not know of hidden messages. -/
def plainConfig : Config := ⟨false, 100, fun _ => false⟩

theorem Delivered.recipients {ms : List Msg} {events : List Event}
    (h : Delivered (fun _ => false) ms events) : events.map Event.recipients = ms.map Msg.recipients := by
  induction h with
  | nil => rfl
  | parse _ _ hrecipients ih =>
    rw [map_append, map_append, ih, map_singleton, map_singleton, hrecipients]
  | skip _ hhidden => cases hhidden

/-- Two messages to one player. -/
def playerTwice : List (Msg × List Byte) :=
  [(⟨demSingle, 3, [5]⟩, [1, 28, 1, 0, 0, 0, 5]), (⟨demSingle, 3, [6]⟩, [1, 1, 1, 0, 0, 0, 6])]

theorem playerTwice_writes :
    Writes (fun _ m => m.Valid) ⟨demSingle, 3, ⟨0, 0, []⟩⟩ playerTwice := by
  have hvalid (b : Byte) : Msg.Valid ⟨demSingle, 3, [b]⟩ :=
    ⟨.inr (.inr ⟨.inl rfl, by simp⟩), by simp [maxMsglen]⟩
  have hfirst : writeMVDMessage freshWriter 1 ⟨demSingle, 3, [5]⟩
      = some (⟨demSingle, 3, ⟨0, 0, []⟩⟩, [1, 28, 1, 0, 0, 0, 5]) := by
    decide
  have hsecond : writeMVDMessage ⟨demSingle, 3, ⟨0, 0, []⟩⟩ 1 ⟨demSingle, 3, [6]⟩
      = some (⟨demSingle, 3, ⟨0, 0, []⟩⟩, [1, 1, 1, 0, 0, 0, 6]) := by
    decide
  have hlog : Writes (fun _ m => m.Valid) _ [(⟨demSingle, 3, [5]⟩, [1, 28, 1, 0, 0, 0, 5])] :=
    .message (.start freshWriter) (hvalid 5) hfirst
  exact hlog.message (hvalid 6) hsecond

/-- The proxy when it has played them. -/
def misdirected : Qtv :=
  { freshQtv with
    parsetime := 1100
    nextpackettime := 2
    forwarded := [[1, 28, 1, 0, 0, 0, 5, 1, 1, 1, 0, 0, 0, 6]]
    parsed := [⟨[5], demSingle, 8⟩, ⟨[6], demRead, BitVec.allOnes 32⟩]
    forwardpoint := 0 }

end MvdStream

end FteQuake
