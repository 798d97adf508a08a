import FteQuake.Common.Sizebuf
import FteQuake.Lib.Lines

/-!
# The relay of candidates

A broker stands between a client behind a websocket and a server that is reached by packets. The client's lines wait in
`webrtc.candidates` and go out with `ice_ccand` again and again (`FTENET_TCP_GetPacket`), until `FTENET_TCP_ICEResponse` of
`common/net_wins.c` gets an answer that counts them; `SVC_ICE_Candidate` of `common/net_ice.c` makes the answers. The
packets between the two can be lost, doubled and reordered: every packet that was sent can arrive at any later time.

In every run whose steps `Meets` its conditions the lines of both sides arrive once and in order: `Runs.delivers`.
-/

namespace FteQuake

open List Option BitVec

namespace CandidateBroker

open Lines

/-- The end of a line. -/
def newline : QByte := 0x0a

/-- `ICEMSG_OFFER` and `ICEMSG_CANDIDATE`. -/
inductive IceMsg
  | offer
  | candidate
  deriving DecidableEq

/-! ## The broker -/

/-- What the broker knows of a client. -/
structure Broker where
  offer : Option (List QByte)
  candidates : Option (List QByte)
  outcand : ℤ
  candack : ℤ

/-- An `ice_ccand` packet. -/
structure Request where
  seq : ℤ
  ack : ℤ
  text : List QByte

/-- Lines with the last one closed. -/
def closed (chunk : List QByte) : List QByte :=
  if chunk = [] ∨ chunk.getLast? = some newline then chunk else chunk ++ [newline]

/-- `FTENET_TCP_ReadStream`, with `ICEMSG_OFFER` from the client. -/
def readOffer (b : Broker) (text : List QByte) : Broker := { b with offer := some text }

/-- `FTENET_TCP_ReadStream`, with `ICEMSG_CANDIDATE` from the client. -/
def readCandidate (b : Broker) (chunk : List QByte) : Broker :=
  if chunk = [] then b else { b with candidates := some (b.candidates.getD [] ++ closed chunk) }

/-- `FTENET_TCP_GetPacket`, which has to send the offer first. -/
def getPacket (b : Broker) : Option Request :=
  if b.offer.isSome then none else b.candidates.map fun text => ⟨b.outcand, b.candack, text⟩

/-- `sizeof(msg)`. -/
def msgSize : ℕ := 1400

/-- The variables of the loop over the lines of an answer, and what is sent to the client. -/
structure Forward where
  seq : BitVec 8
  candack : ℤ
  sent : List (IceMsg × List QByte)

/-- One line of an answer. There is no result if it does not fit in `msg`. -/
def forwardLine (f : Forward) (line : List QByte) : Option Forward :=
  let seq := f.seq + 1
  if f.seq.toInt < f.candack then some { f with seq := seq }
  else if 3 + line.length ≤ msgSize then some ⟨seq, seq.toInt, f.sent ++ [(.candidate, line)]⟩
  else none

/-- The text behind the lines that were counted. It is at its end when there are too few. -/
def skipLines (n : ℕ) (text : List QByte) : List QByte :=
  if n ≤ (lines newline text).length then dropLines newline n text else []

/-- `FTENET_TCP_ICEResponse`. There is no result if a byte is written behind `msg`. -/
def iceResponse (b : Broker) (type : IceMsg) (seq ack : BitVec 8) (sdp : List QByte) :
    Option (Broker × List (IceMsg × List QByte)) :=
  match type with
  | .candidate =>
    let nc := b.candidates.map (skipLines (ack.toInt - b.outcand).toNat)
    ((lines newline sdp).foldlM forwardLine ⟨seq, b.candack, []⟩).map fun f =>
      (⟨none, nc.filter (fun text => text ≠ []), ack.toInt, f.candack⟩, f.sent)
  | .offer =>
    if 3 + (min sdp.length (msgSize - 1) + 1) ≤ msgSize then
      some ({ b with offer := none }, [(.offer, sdp.take (msgSize - 1))])
    else none

/-! ## The server -/

/-- `ice->u`, and the lines that were handed on. -/
structure Target where
  inseq : ℕ
  outseq : ℕ
  text : Option (List QByte)
  got : List (List QByte)

/-- An `ice_scand` packet. -/
structure Answer where
  seq : ℕ
  ack : ℕ
  text : List QByte

/-- A number of a request as an `unsigned int`. -/
def unsigned (x : ℤ) : ℕ := (x % 2 ^ 32).toNat

/-- The loop over the lines of a request. -/
def readLines (t : Target) : ℕ → List (List QByte) → Target
  | _, [] => t
  | seq, l :: ls =>
    if seq < t.inseq then readLines t (seq + 1) ls
    else readLines { t with inseq := t.inseq + 1, got := t.got ++ [l] } (seq + 1) ls

/-- The loop over the lines that the broker has. There is no result if it is about to search no text. -/
def chop (t : Target) (ack : ℕ) : Option Target :=
  if ack ≤ t.outseq then some t
  else t.text.map fun text => { t with text := some (dropLines newline (ack - t.outseq) text), outseq := ack }

/-- `SVC_ICE_Candidate`. It reads some lines of the request, has some new lines of its own, and sends its text up to where the
packet ends. -/
def svcIceCandidate (t : Target) (r : Request) (read : ℕ) (new : List (List QByte)) (cut : ℕ) : Option (Target × Answer) :=
  (chop (readLines t (unsigned r.seq) ((lines newline r.text).take read)) (unsigned r.ack)).map fun t =>
    let text := if new = [] then t.text else some (t.text.getD [] ++ new.flatMap (· ++ [newline]))
    ({ t with text := text }, ⟨t.outseq, t.inseq, (text.getD []).take cut⟩)

/-! ## Runs -/

/-- The broker and the server, all packets between them, what the client got, and the lines of both sides. -/
structure System where
  broker : Broker
  target : Target
  requests : List Request
  answers : List Answer
  sent : List (IceMsg × List QByte)
  clientLines : List (List QByte)
  targetLines : List (List QByte)

def initial : System := ⟨⟨none, none, 0, 0⟩, ⟨0, 0, none, []⟩, [], [], [], [], []⟩

/-- What can happen. A packet arrives by its place among those that were sent. -/
inductive Op
  | offer (text : List QByte)
  | candidate (chunk : List QByte)
  | getPacket
  | request (i read : ℕ) (new : List (List QByte)) (cut : ℕ)
  | answer (i : ℕ)
  | reply (sdp : List QByte)

/-- One step. There is no result if a byte is written behind `msg`, or no text is searched. -/
def exec (s : System) : Op → Option System
  | .offer text => some { s with broker := readOffer s.broker text }
  | .candidate chunk =>
    some { s with broker := readCandidate s.broker chunk, clientLines := s.clientLines ++ lines newline (closed chunk) }
  | .getPacket => some { s with requests := s.requests ++ (getPacket s.broker).toList }
  | .request i read new cut =>
    s.requests[i]?.elim (some s) fun r =>
      (svcIceCandidate s.target r read new cut).map fun (t, a) =>
        { s with
          target := t
          answers := s.answers ++ [a]
          targetLines := s.targetLines ++ lines newline (new.flatMap (· ++ [newline])) }
  | .answer i =>
    s.answers[i]?.elim (some s) fun a =>
      (iceResponse s.broker .candidate (BitVec.ofNat 8 a.seq) (BitVec.ofNat 8 a.ack) a.text).map fun r =>
        { s with broker := r.1, sent := s.sent ++ r.2 }
  | .reply sdp =>
    (iceResponse s.broker .offer 0 0 sdp).map fun r => { s with broker := r.1, sent := s.sent ++ r.2 }

/-- The conditions of a step: an answer has numbers below 128, it is not older than the last that counted more lines, and its
new lines fit in `msg`; a reply fits in it too. -/
def Meets (s : System) : Op → Prop
  | .answer i => ∀ a ∈ s.answers[i]?, a.seq + (lines newline a.text).length < 128 ∧ a.ack < 128 ∧
      s.broker.outcand ≤ a.ack ∧
      ∀ (j : ℕ) (l : List QByte), (lines newline a.text)[j]? = some l → s.broker.candack ≤ a.seq + j →
        3 + l.length ≤ msgSize
  | .reply sdp => sdp.length + 3 < msgSize
  | _ => True

/-- The states of the runs whose steps meet their conditions. -/
inductive Runs : System → Prop
  | initial : Runs initial
  | step {s s' : System} {op : Op} (h : Runs s) (hmeets : Meets s op) (hstep : exec s op = some s') : Runs s'

/-- The lines that the client got. -/
def forwarded (sent : List (IceMsg × List QByte)) : List (List QByte) :=
  (sent.filter fun m => m.1 = .candidate).map Prod.snd

/-- The client got the server's lines up to `candack`, each once and in order, and the server has dropped no other; the server
got the client's up to `inseq`, and the broker has dropped only some of these. -/
structure Delivers (s : System) : Prop where
  forwarded : forwarded s.sent = s.targetLines.take s.broker.candack.toNat
  candack_le : s.broker.candack ≤ s.targetLines.length
  outseq_le : s.target.outseq ≤ s.broker.candack
  got : s.target.got = s.clientLines.take s.target.inseq
  candidates : s.broker.candidates.getD [] = (s.clientLines.drop s.broker.outcand.toNat).flatten
  outcand_le : s.broker.outcand ≤ s.target.inseq

/-! ## The invariant -/

/-- A request has the client's lines from one that was not counted before on. -/
def Request.Holds (s : System) (r : Request) : Prop :=
  ∃ o a n : ℕ, r.seq = o ∧ r.ack = a ∧ (o : ℤ) ≤ s.broker.outcand ∧ (a : ℤ) ≤ s.broker.candack ∧
    n ≤ s.clientLines.length ∧ r.text = ((s.clientLines.take n).drop o).flatten

/-- An answer has the server's lines from one on that the client got or gets next, up to some place. -/
def Answer.Holds (s : System) (a : Answer) : Prop :=
  (a.seq : ℤ) ≤ s.broker.candack ∧ a.ack ≤ s.target.inseq ∧ a.text <+: (s.targetLines.drop a.seq).flatten

structure Inv (s : System) : Prop extends Delivers s where
  clientLine : ∀ l ∈ s.clientLines, IsLine newline l
  targetLine : ∀ l ∈ s.targetLines, IsLine newline l
  outcand_nonneg : 0 ≤ s.broker.outcand
  outcand_lt : s.broker.outcand < 128
  candack_nonneg : 0 ≤ s.broker.candack
  candack_lt : s.broker.candack < 128
  inseq_le : s.target.inseq ≤ s.clientLines.length
  text : s.target.text.getD [] = (s.targetLines.drop s.target.outseq).flatten
  text_isSome : s.targetLines ≠ [] → s.target.text.isSome
  requests : ∀ r ∈ s.requests, r.Holds s
  answers : ∀ a ∈ s.answers, a.Holds s

theorem inv_initial : Inv initial where
  forwarded := rfl
  candack_le := le_rfl
  outseq_le := le_rfl
  got := rfl
  candidates := rfl
  outcand_le := le_rfl
  clientLine := nofun
  targetLine := nofun
  outcand_nonneg := le_rfl
  outcand_lt := by decide
  candack_nonneg := le_rfl
  candack_lt := by decide
  inseq_le := le_rfl
  text := rfl
  text_isSome := fun h => absurd rfl h
  requests := nofun
  answers := nofun

/-! ## Texts -/

section Texts

variable {L : List (List QByte)} {chunk : List QByte}

theorem flatten_lines_closed (chunk : List QByte) : (lines newline (closed chunk)).flatten = closed chunk := by
  rw [closed]
  split_ifs with h
  · rcases h with rfl | h
    · rfl
    · obtain ⟨t, rfl⟩ := getLast?_eq_some_iff.mp h
      exact flatten_lines_append t
  · exact flatten_lines_append chunk

theorem flatten_lines_new (new : List (List QByte)) :
    (lines newline (new.flatMap (· ++ [newline]))).flatten = new.flatMap (· ++ [newline]) := by
  rcases eq_nil_or_concat new with rfl | ⟨new', l, rfl⟩
  · rfl
  · have happend : (new' ++ [l]).flatMap (· ++ [newline]) = (new'.flatMap (· ++ [newline]) ++ l) ++ [newline] := by
      simp
    rw [concat_eq_append, happend]
    exact flatten_lines_append _

theorem skipLines_flatten {n : ℕ} (hL : ∀ l ∈ L, IsLine newline l) (hn : n ≤ L.length) :
    skipLines n L.flatten = (L.drop n).flatten := by
  rw [skipLines, lines_flatten hL, if_pos hn, dropLines_flatten hL hn]

theorem dropLines_nil (n : ℕ) : dropLines newline n [] = [] := by
  cases n <;> rfl

theorem getD_filter_ne_nil (text : Option (List QByte)) : (text.filter (fun t => t ≠ [])).getD [] = text.getD [] := by
  cases text with
  | none => rfl
  | some t => by_cases ht : t = [] <;> simp [Option.filter, ht]

theorem forwarded_append (sent sent' : List (IceMsg × List QByte)) :
    forwarded (sent ++ sent') = forwarded sent ++ forwarded sent' := by
  simp [forwarded]

theorem take_succ_of_prefix {L ls : List (List QByte)} {l : List QByte} {n : ℕ} (h : l :: ls <+: L.drop n) :
    n < L.length ∧ ls <+: L.drop (n + 1) ∧ L.take (n + 1) = L.take n ++ [l] := by
  obtain ⟨rest, hrest⟩ := h
  have hlt : n < L.length := by
    by_contra hge
    rw [drop_eq_nil_of_le (not_lt.mp hge)] at hrest
    cases hrest
  rw [List.drop_eq_getElem_cons hlt, List.cons_append] at hrest
  obtain ⟨hl, hls⟩ := List.cons.inj hrest
  exact ⟨hlt, ⟨rest, hls⟩, by rw [take_succ_eq_append_getElem hlt, ← hl]⟩

end Texts

/-! ## The loops -/

section Loops

variable {L ls : List (List QByte)}

/-- The server takes the lines that it has not counted, in order. -/
theorem readLines_spec (t : Target) (seq : ℕ) (hls : ls <+: L.drop seq) (hseq : seq ≤ t.inseq) (hinseq : t.inseq ≤ L.length)
    (hgot : t.got = L.take t.inseq) :
    (readLines t seq ls).got = L.take (readLines t seq ls).inseq ∧ t.inseq ≤ (readLines t seq ls).inseq ∧
      (readLines t seq ls).inseq ≤ L.length ∧ (readLines t seq ls).outseq = t.outseq ∧
      (readLines t seq ls).text = t.text := by
  induction ls generalizing t seq with
  | nil => exact ⟨hgot, le_rfl, hinseq, rfl, rfl⟩
  | cons l ls ih =>
    obtain ⟨hlt, hrest, htake⟩ := take_succ_of_prefix hls
    rw [readLines]
    split_ifs with hseen
    · exact ih t (seq + 1) hrest hseen hinseq hgot
    · have heq : seq = t.inseq := by omega
      subst heq
      obtain ⟨h1, h2, h3, h4, h5⟩ := ih { t with inseq := t.inseq + 1, got := t.got ++ [l] } (t.inseq + 1) hrest le_rfl hlt
        (by rw [hgot, htake])
      exact ⟨h1, (Nat.le_succ _).trans h2, h3, h4, h5⟩

/-- The broker forwards the lines that the client has not got, in order. -/
theorem foldlM_forwardLine (q a : ℕ) (sent : List (IceMsg × List QByte)) (hls : ls <+: L.drop q) (hq : q ≤ a)
    (hlen : q + ls.length < 128) (ha : a ≤ L.length) (ha' : a < 128)
    (hfits : ∀ j l, ls[j]? = some l → a ≤ q + j → 3 + l.length ≤ msgSize) :
    ∃ (a' : ℕ) (seq : BitVec 8) (new : List (IceMsg × List QByte)),
      ls.foldlM forwardLine ⟨BitVec.ofNat 8 q, a, sent⟩ = some ⟨seq, a', sent ++ new⟩ ∧
      a ≤ a' ∧ a' ≤ L.length ∧ a' < 128 ∧ L.take a' = L.take a ++ forwarded new := by
  induction ls generalizing q a sent with
  | nil => exact ⟨a, BitVec.ofNat 8 q, [], by simp, le_rfl, ha, ha', by simp [forwarded]⟩
  | cons l ls ih =>
    obtain ⟨hlt, hrest, htake⟩ := take_succ_of_prefix hls
    rw [length_cons] at hlen
    have hint : (BitVec.ofNat 8 q).toInt = q := by
      rw [toInt_eq_toNat_of_lt, toNat_ofNat] <;> simp <;> omega
    have hnext : BitVec.ofNat 8 q + 1 = BitVec.ofNat 8 (q + 1) := by
      rw [ofNat_add]
      rfl
    have hfits' : ∀ j l', ls[j]? = some l' → a ≤ q + 1 + j → 3 + l'.length ≤ msgSize :=
      fun j l' hl' h => hfits (j + 1) l' (by simpa using hl') (by omega)
    rw [foldlM_cons, forwardLine]
    by_cases hold : q < a
    · rw [if_pos (show (BitVec.ofNat 8 q).toInt < (a : ℤ) by rw [hint]; exact_mod_cast hold), hnext]
      exact ih (q + 1) a sent hrest hold (by omega) ha ha' hfits'
    · have heq : q = a := by omega
      subst heq
      rw [if_neg (by rw [hint]; exact lt_irrefl _), if_pos (hfits 0 l rfl le_rfl), hnext]
      have hint' : (BitVec.ofNat 8 (q + 1)).toInt = ((q + 1 : ℕ) : ℤ) := by
        rw [toInt_eq_toNat_of_lt, toNat_ofNat] <;> simp <;> omega
      obtain ⟨a', seq, new, hrun, hle, hle', hlt', hnew⟩ := ih (q + 1) (q + 1) (sent ++ [(.candidate, l)]) hrest le_rfl
        (by omega) hlt (by omega) fun j l' hl' _ => hfits' j l' hl' (by omega)
      refine ⟨a', seq, (.candidate, l) :: new, ?_, by omega, hle', hlt', ?_⟩
      · rw [hint']
        simpa using hrun
      · rw [hnew, htake, List.append_assoc]
        rfl

end Loops

/-! ## Steps of the two sides -/

section Steps

variable {s : System}

theorem unsigned_natCast {n : ℕ} (hn : n < 2 ^ 32) : unsigned n = n := by
  rw [unsigned]
  omega

theorem Request.Holds.mono {s' : System} {r : Request} (h : r.Holds s) (hout : s.broker.outcand ≤ s'.broker.outcand)
    (hack : s.broker.candack ≤ s'.broker.candack) (hlines : s.clientLines <+: s'.clientLines) : r.Holds s' := by
  obtain ⟨o, a, n, hseq, hackr, ho, ha, hn, htext⟩ := h
  obtain ⟨more, hmore⟩ := hlines
  refine ⟨o, a, n, hseq, hackr, ho.trans hout, ha.trans hack, ?_, ?_⟩
  · rw [← hmore, length_append]
    omega
  · rw [htext, ← hmore, take_append_of_le_length hn]

theorem Answer.Holds.mono {s' : System} {a : Answer} (h : a.Holds s) (hle : (a.seq : ℤ) ≤ s.targetLines.length)
    (hack : s.broker.candack ≤ s'.broker.candack) (hinseq : s.target.inseq ≤ s'.target.inseq)
    (hlines : s.targetLines <+: s'.targetLines) : a.Holds s' := by
  obtain ⟨hseq, hackr, htext⟩ := h
  obtain ⟨more, hmore⟩ := hlines
  refine ⟨hseq.trans hack, hackr.trans hinseq, htext.trans ?_⟩
  rw [← hmore, drop_append_of_le_length (by exact_mod_cast hle), flatten_append]
  exact prefix_append ..

/-- The server's side of a request. -/
theorem Inv.request_step (h : Inv s) {r : Request} (hr : r ∈ s.requests) (read : ℕ) (new : List (List QByte)) (cut : ℕ) :
    ∃ t a, svcIceCandidate s.target r read new cut = some (t, a) ∧
      t.got = s.clientLines.take t.inseq ∧ s.target.inseq ≤ t.inseq ∧ t.inseq ≤ s.clientLines.length ∧
      s.target.outseq ≤ t.outseq ∧ (t.outseq : ℤ) ≤ s.broker.candack ∧
      t.text.getD [] = ((s.targetLines ++ lines newline (new.flatMap (· ++ [newline]))).drop t.outseq).flatten ∧
      (s.targetLines ++ lines newline (new.flatMap (· ++ [newline])) ≠ [] → t.text.isSome) ∧
      a.seq = t.outseq ∧ a.ack = t.inseq ∧ a.text <+: t.text.getD [] := by
  obtain ⟨o, a, n, hseq, hack, ho, ha, hn, htext⟩ := h.requests r hr
  have hout := h.outcand_lt
  have hcand := h.candack_lt
  have hcandle := h.candack_le
  have hincl : ∀ l ∈ (s.clientLines.take n).drop o, IsLine newline l :=
    fun l hl => h.clientLine l (mem_of_mem_take (mem_of_mem_drop hl))
  have hpart : ((s.clientLines.take n).drop o).take read <+: s.clientLines.drop o := by
    rw [drop_take]
    exact ( take_prefix ..).trans ( take_prefix ..)
  have hole : (o : ℤ) ≤ s.target.inseq := ho.trans h.outcand_le
  obtain ⟨hgot, hle, hle', houtseq, htext'⟩ := readLines_spec s.target o hpart (by exact_mod_cast hole) h.inseq_le h.got
  rw [svcIceCandidate, htext, lines_flatten hincl, hseq, hack, unsigned_natCast (by omega), unsigned_natCast (by omega)]
  generalize readLines s.target o (((s.clientLines.take n).drop o).take read) = t at *
  -- what the broker has is dropped
  obtain ⟨t', hchop, hgot', hinseq', houtge, houtle, htext'', hsome⟩ : ∃ t', chop t a = some t' ∧ t'.got = t.got ∧
      t'.inseq = t.inseq ∧ s.target.outseq ≤ t'.outseq ∧ (t'.outseq : ℤ) ≤ s.broker.candack ∧
      t'.text.getD [] = (s.targetLines.drop t'.outseq).flatten ∧ (s.targetLines ≠ [] → t'.text.isSome) := by
    rw [chop]
    split_ifs with hold
    · refine ⟨t, rfl, rfl, rfl, houtseq.ge, ?_, ?_, ?_⟩
      · rw [houtseq]
        exact h.outseq_le
      · rw [htext', houtseq]
        exact h.text
      · rw [htext']
        exact h.text_isSome
    · have hne : s.targetLines ≠ [] := by
        intro hnil
        rw [hnil, length_nil] at hcandle
        omega
      obtain ⟨text, htextsome⟩ := isSome_iff_exists.mp (h.text_isSome hne)
      have hflat := h.text
      rw [htextsome, getD_some] at hflat
      refine ⟨{ t with text := some (dropLines newline (a - t.outseq) text), outseq := a },
        by rw [htext', htextsome, map_some], rfl, rfl, (show s.target.outseq ≤ a by omega), ha, ?_, fun _ => rfl⟩
      rw [getD_some, hflat, houtseq,
        dropLines_flatten (fun l hl => h.targetLine l (mem_of_mem_drop hl)) (by rw [length_drop]; omega),
        drop_drop, Nat.add_sub_cancel' (by omega)]
  rw [hchop, map_some]
  refine ⟨_, _, rfl, by rw [hgot', hinseq', hgot], hinseq'.symm ▸ hle, hinseq'.symm ▸ hle', houtge, houtle, ?_, ?_, rfl, rfl,
    take_prefix ..⟩
  · have houtlen : t'.outseq ≤ s.targetLines.length := by exact_mod_cast houtle.trans hcandle
    rw [drop_append_of_le_length houtlen, flatten_append, flatten_lines_new, ← htext'']
    dsimp only
    split_ifs with hnew
    · simp [hnew]
    · rfl
  · dsimp only
    split_ifs with hnew
    · rw [hnew]
      simpa [lines] using hsome
    · exact fun _ => rfl

/-- The broker's side of an answer that meets the conditions. -/
theorem Inv.answer_step (h : Inv s) {a : Answer} (ha : a ∈ s.answers) (hseq : a.seq + (lines newline a.text).length < 128)
    (hack : a.ack < 128) (hnew : s.broker.outcand ≤ a.ack)
    (hfits : ∀ (j : ℕ) (l : List QByte), (lines newline a.text)[j]? = some l → s.broker.candack ≤ a.seq + j →
      3 + l.length ≤ msgSize) :
    ∃ b sent, iceResponse s.broker .candidate (BitVec.ofNat 8 a.seq) (BitVec.ofNat 8 a.ack) a.text = some (b, sent) ∧
      b.outcand = a.ack ∧ b.candidates.getD [] = (s.clientLines.drop a.ack).flatten ∧
      s.broker.candack ≤ b.candack ∧ b.candack ≤ s.targetLines.length ∧ b.candack < 128 ∧
      forwarded (s.sent ++ sent) = s.targetLines.take b.candack.toNat := by
  obtain ⟨hseqle, hackle, htext⟩ := h.answers a ha
  have hinseq := h.inseq_le
  have hcandle := h.candack_le
  have hcandlt := h.candack_lt
  obtain ⟨c, hc⟩ := Int.eq_ofNat_of_zero_le h.candack_nonneg
  obtain ⟨o, ho⟩ := Int.eq_ofNat_of_zero_le h.outcand_nonneg
  rw [hc] at hseqle hcandle hcandlt hfits
  rw [ho] at hnew
  have hline : ∀ l ∈ s.targetLines.drop a.seq, IsLine newline l := fun l hl => h.targetLine l (mem_of_mem_drop hl)
  obtain ⟨c', seq', sent, hrun, hle, hle', hlt', htake⟩ := foldlM_forwardLine a.seq c [] (lines_of_begin hline htext)
    (by exact_mod_cast hseqle) hseq (by exact_mod_cast hcandle) (by exact_mod_cast hcandlt)
    (fun j l hl hj => hfits j l hl (by exact_mod_cast hj))
  have hackInt : (BitVec.ofNat 8 a.ack).toInt = a.ack := by
    rw [toInt_eq_toNat_of_lt, toNat_ofNat] <;> simp <;> omega
  have hskip : (s.broker.candidates.map (skipLines (((BitVec.ofNat 8 a.ack).toInt - s.broker.outcand).toNat))).getD [] =
      (s.clientLines.drop a.ack).flatten := by
    have hwaiting := h.candidates
    have hcount : ((BitVec.ofNat 8 a.ack).toInt - s.broker.outcand).toNat = a.ack - o := by
      rw [hackInt, ho]
      omega
    have htotal : o + (a.ack - o) = a.ack := by omega
    rw [ho, Int.toNat_natCast] at hwaiting
    rw [hcount]
    have hskipped : skipLines (a.ack - o) (s.clientLines.drop o).flatten = (s.clientLines.drop a.ack).flatten := by
      rw [skipLines_flatten (fun l hl => h.clientLine l (mem_of_mem_drop hl)) (by rw [length_drop]; omega),
        drop_drop, htotal]
    cases hcandidates : s.broker.candidates with
    | none =>
      rw [hcandidates, getD_none] at hwaiting
      rw [← hskipped, ← hwaiting, map_none, getD_none, skipLines]
      split_ifs
      · exact (dropLines_nil _).symm
      · rfl
    | some text =>
      rw [hcandidates, getD_some] at hwaiting
      rw [map_some, getD_some, hwaiting, hskipped]
  rw [iceResponse, hc, hrun]
  refine ⟨_, _, rfl, hackInt, ?_, Int.ofNat_le.mpr hle, Int.ofNat_le.mpr hle', Int.ofNat_lt.mpr hlt', ?_⟩
  · rw [getD_filter_ne_nil, hskip]
  · rw [forwarded_append, h.forwarded, hc, Int.toNat_natCast]
    dsimp only
    rw [Int.toNat_natCast, htake, nil_append]

end Steps

/-! ## Runs keep the invariant -/

section Runs

variable {s : System} {op : Op}

/-- A step that meets its conditions stays in `msg`, and the invariant is kept. -/
theorem Inv.step (h : Inv s) (hmeets : Meets s op) : ∃ s', exec s op = some s' ∧ Inv s' := by
  have hcandle := h.candack_le
  cases op with
  | offer text => exact ⟨_, rfl, { h with }⟩
  | candidate chunk =>
    refine ⟨_, rfl, ?_⟩
    have hbroker : readCandidate s.broker chunk =
        { s.broker with candidates := (readCandidate s.broker chunk).candidates } := by
      rw [readCandidate]
      split_ifs <;> rfl
    have hwaiting : (readCandidate s.broker chunk).candidates.getD [] = s.broker.candidates.getD [] ++ closed chunk := by
      rw [readCandidate]
      split_ifs with hempty
      · simp [hempty, closed]
      · rfl
    have hle : s.broker.outcand.toNat ≤ s.clientLines.length := by
      have := h.outcand_le
      have := h.inseq_le
      omega
    rw [hbroker]
    exact { h with
      got := by rw [h.got, take_append_of_le_length h.inseq_le]
      candidates := by
        dsimp only
        rw [hwaiting, h.candidates, drop_append_of_le_length hle, flatten_append, flatten_lines_closed]
      clientLine := fun l hl => (mem_append.mp hl).elim (h.clientLine l) isLine_of_mem_lines
      inseq_le := by
        rw [length_append]
        exact h.inseq_le.trans (Nat.le_add_right ..)
      requests := fun r hr => (h.requests r hr).mono le_rfl le_rfl (prefix_append ..)
      answers := fun a ha => (h.answers a ha).mono ((h.answers a ha).1.trans hcandle) le_rfl le_rfl prefix_rfl }
  | getPacket =>
    refine ⟨_, rfl, { h with requests := fun r hr => ?_ }⟩
    rcases mem_append.mp hr with hr | hr
    · exact h.requests r hr
    · rw [mem_toList, getPacket] at hr
      split_ifs at hr
      obtain ⟨text, htext, rfl⟩ := map_eq_some_iff.mp hr
      have hwaiting := h.candidates
      rw [htext, getD_some] at hwaiting
      refine ⟨s.broker.outcand.toNat, s.broker.candack.toNat, s.clientLines.length,
        (Int.toNat_of_nonneg h.outcand_nonneg).symm, (Int.toNat_of_nonneg h.candack_nonneg).symm, (Int.toNat_of_nonneg h.outcand_nonneg).le,
        (Int.toNat_of_nonneg h.candack_nonneg).le, le_rfl, ?_⟩
      rw [hwaiting, take_length]
  | request i read new cut =>
    rw [exec]
    cases hi : s.requests[i]? with
    | none => exact ⟨s, rfl, h⟩
    | some r =>
      obtain ⟨t, a, hrun, hgot, hle, hle', hout, hout', htext, hsome, hseq, hack, hpre⟩ :=
        h.request_step (mem_of_getElem? hi) read new cut
      refine ⟨_, by rw [elim_some, hrun, map_some], ?_⟩
      have hgrow : s.targetLines <+: s.targetLines ++ lines newline (new.flatMap (· ++ [newline])) := prefix_append ..
      exact { h with
        forwarded := by
          dsimp only
          rw [h.forwarded, take_append_of_le_length (by omega)]
        candack_le := hcandle.trans (by exact_mod_cast hgrow.length_le)
        outseq_le := hout'
        got := hgot
        outcand_le := h.outcand_le.trans (by exact_mod_cast hle)
        targetLine := fun l hl => (mem_append.mp hl).elim (h.targetLine l) isLine_of_mem_lines
        inseq_le := hle'
        text := htext
        text_isSome := hsome
        requests := fun r hr => (h.requests r hr).mono le_rfl le_rfl prefix_rfl
        answers := fun a' ha' => by
          rcases mem_append.mp ha' with ha' | ha'
          · exact (h.answers a' ha').mono ((h.answers a' ha').1.trans hcandle) le_rfl hle hgrow
          · rw [mem_singleton] at ha'
            rw [ha']
            exact ⟨hseq ▸ hout', hack.le, by rw [hseq]; exact htext ▸ hpre⟩ }
  | answer i =>
    rw [exec]
    cases hi : s.answers[i]? with
    | none => exact ⟨s, rfl, h⟩
    | some a =>
      obtain ⟨hseq, hack, hnew, hfits⟩ := hmeets a hi
      obtain ⟨b, sent, hrun, hout, hwaiting, hle, hle', hlt, hforwarded⟩ :=
        h.answer_step (mem_of_getElem? hi) hseq hack hnew hfits
      have hackle := (h.answers a (mem_of_getElem? hi)).2.1
      refine ⟨_, by rw [elim_some, hrun, map_some], ?_⟩
      exact { h with
        forwarded := hforwarded
        candack_le := hle'
        outseq_le := h.outseq_le.trans hle
        candidates := by
          dsimp only
          rw [hwaiting, hout, Int.toNat_natCast]
        outcand_le := by
          dsimp only
          rw [hout]
          exact_mod_cast hackle
        outcand_nonneg := by
          dsimp only
          rw [hout]
          exact Int.natCast_nonneg _
        outcand_lt := by
          dsimp only
          rw [hout]
          exact_mod_cast hack
        candack_nonneg := h.candack_nonneg.trans hle
        candack_lt := hlt
        requests := fun r hr => (h.requests r hr).mono (by rw [hout]; exact hnew) hle prefix_rfl
        answers := fun a' ha' => (h.answers a' ha').mono ((h.answers a' ha').1.trans hcandle) hle le_rfl prefix_rfl }
  | reply sdp =>
    have hfits : 3 + (min sdp.length (msgSize - 1) + 1) ≤ msgSize := by
      have hlt : sdp.length + 3 < msgSize := hmeets
      omega
    refine ⟨_, by rw [exec, iceResponse, if_pos hfits, map_some], ?_⟩
    exact { h with
      forwarded := by
        dsimp only
        rw [forwarded_append, h.forwarded]
        simp [forwarded] }

theorem Runs.inv (h : Runs s) : Inv s := by
  induction h with
  | initial => exact inv_initial
  | step _ hmeets hstep ih =>
    obtain ⟨s', hrun, hinv⟩ := ih.step hmeets
    rw [hstep] at hrun
    cases hrun
    exact hinv

end Runs
/-- A line of the client is sent and counted, and the answer brings a line of the server. -/
def oneEach : List Op := [.candidate [0x61], .getPacket, .request 0 1 [[0x62]] 1000, .answer 0]

/-- The state behind some steps. -/
def after (n : ℕ) : System := ((oneEach.take n).foldlM exec initial).getD initial

/-- An old answer arrives behind a newer one, and the client's third line is dropped although the server never took it. -/
def staleAnswer : List Op :=
  [.candidate [0x61], .getPacket, .request 0 1 [] 1000, .candidate [0x62], .getPacket, .request 1 2 [] 1000,
    .answer 1, .answer 0, .candidate [0x63], .getPacket, .request 2 1 [] 1000, .answer 2]

end CandidateBroker

end FteQuake
