import Mathlib.Data.BitVec

/-!
# Permissions on a relay

`ICE_SendSpam` keeps an entry in a server for each candidate that the relay has to let through, and `TURN_AuthorisePeer`
asks for the permission with the transaction id of the entry. `ICE_WasStun` looks up the entry that a reply
acknowledges, and gives a new transaction id to the entry that has the number of the server. This is the acknowledged
entry if its number in the server is the server's own (`ownTransaction_iff`).
-/

namespace FteQuake

open List Option

namespace TurnPermission

/-! ## Servers and their entries -/

/-- `stunrnd` and `transactid`. -/
abbrev Transactid := BitVec 32 × BitVec 32 × BitVec 32

/-- An entry of `peer`, for the candidate number `rc`. -/
structure Peer where
  expires : BitVec 32
  retry : BitVec 32
  stunrnd : Transactid
  rc : ℕ

/-- `iceserver_s`. Of the slots in `peer`, the first `peers` are in use. -/
structure Iceserver (Addr : Type*) where
  addr : Addr
  nonce : Option (List (BitVec 8))
  realm : Option (List (BitVec 8))
  peers : ℕ
  peer : ℕ → Peer

/-- `icestate_s`. -/
structure Icestate (Addr : Type*) where
  server : List (Iceserver Addr)

/-- A reply to `STUN_CREATEPERM`: where it is from, its transaction id, and what the walk over its attributes has
found. -/
structure Reply (Addr : Type*) where
  netFrom : Addr
  transactid : Transactid
  err : ℕ
  nonce : Option (List (BitVec 8))
  realm : Option (List (BitVec 8))

variable {Addr : Type*}

def Iceserver.setPeer (s : Iceserver Addr) (j : ℕ) (f : Peer → Peer) : Iceserver Addr :=
  { s with peer := fun k => if k = j then f (s.peer k) else s.peer k }

/-- What a reply does to its entry. An error but a stale nonce does nothing. -/
def Iceserver.acknowledge (s : Iceserver Addr) (r : Reply Addr) (now : BitVec 32) (j : ℕ) : Iceserver Addr :=
  if r.err = 0 then
    s.setPeer j fun p =>
      { p with expires := now - 25 + 5 * 60 * 1000, retry := now - 25 + 4 * 60 * 1000 }
  else if r.err = 438 ∧ r.realm.isSome ∧ r.nonce.isSome then
    { s with nonce := r.nonce, realm := r.realm }.setPeer j fun p => { p with retry := now }
  else s

/-- `Sys_RandomBytes` into an entry. -/
def Iceserver.refresh (s : Iceserver Addr) (i : ℕ) (rnd : Transactid) : Iceserver Addr :=
  s.setPeer i fun p => { p with stunrnd := rnd }

/-! ## The search -/

/-- A place in the nested loops: connection, server and entry. -/
@[ext]
structure Pos where
  con : ℕ
  server : ℕ
  peer : ℕ

def Iceserver.find (s : Iceserver Addr) (id : Transactid) : Option ℕ :=
  (List.range s.peers).find? fun j => (s.peer j).stunrnd = id

section Search

/- `NET_CompareAdr`. -/
variable (compareAdr : Addr → Addr → Bool)

def Icestate.find (con : Icestate Addr) (r : Reply Addr) : Option (ℕ × ℕ) :=
  con.server.zipIdx.findSome? fun s =>
    if compareAdr r.netFrom s.1.addr then (s.1.find r.transactid).map fun j => (s.2, j) else none

/-- What a reply acknowledges. -/
def find (icelist : List (Icestate Addr)) (r : Reply Addr) : Option Pos :=
  icelist.zipIdx.findSome? fun con => (con.1.find compareAdr r).map fun s => ⟨con.2, s.1, s.2⟩

/-- `ICE_WasStun` on a reply to `STUN_CREATEPERM`. -/
def createperm (icelist : List (Icestate Addr)) (r : Reply Addr) (now : BitVec 32) (rnd : Transactid) :
    List (Icestate Addr) :=
  match find compareAdr icelist r with
  | none => icelist
  | some p =>
    icelist.modify p.con fun con =>
      { con with server := con.server.modify p.server fun s =>
          (s.acknowledge r now p.peer).refresh p.server rnd }

end Search

/-! ## Entries -/

def serverAt (icelist : List (Icestate Addr)) (p : Pos) : Option (Iceserver Addr) :=
  icelist[p.con]?.bind fun con => con.server[p.server]?

/-- The entry at a place that is in use, with the address of its server. -/
def entryAt (icelist : List (Icestate Addr)) (p : Pos) : Option (Addr × Peer) :=
  (serverAt icelist p).bind fun s => if p.peer < s.peers then some (s.addr, s.peer p.peer) else none

section Matching

variable (compareAdr : Addr → Addr → Bool) {icelist : List (Icestate Addr)} {r : Reply Addr} {p q : Pos}

/-- The entry at a place waits for a reply. -/
def Matches (icelist : List (Icestate Addr)) (r : Reply Addr) (p : Pos) : Prop :=
  ∃ e, entryAt icelist p = some e ∧ compareAdr r.netFrom e.1 ∧ e.2.stunrnd = r.transactid

theorem entryAt_of_serverAt {s : Iceserver Addr} (hs : serverAt icelist p = some s) (hlt : p.peer < s.peers) :
    entryAt icelist p = some (s.addr, s.peer p.peer) := by
  rw [entryAt, hs, bind_some, if_pos hlt]

theorem entryAt_eq_some {e : Addr × Peer} (h : entryAt icelist p = some e) :
    ∃ s, serverAt icelist p = some s ∧ p.peer < s.peers ∧ e = (s.addr, s.peer p.peer) := by
  obtain ⟨s, hs, he⟩ := bind_eq_some_iff.mp h
  rw [ite_none_right_eq_some] at he
  exact ⟨s, hs, he.1, (some.inj he.2).symm⟩

theorem matches_of_find (h : find compareAdr icelist r = some p) : Matches compareAdr icelist r p := by
  obtain ⟨⟨con, c⟩, hcon, hp⟩ := exists_of_findSome?_eq_some h
  obtain ⟨⟨i, j⟩, hfind, rfl⟩ := map_eq_some_iff.mp hp
  obtain ⟨⟨s, i'⟩, hs, hsearch⟩ := exists_of_findSome?_eq_some hfind
  rw [ite_none_right_eq_some] at hsearch
  obtain ⟨hadr, hj⟩ := hsearch
  obtain ⟨j', hj, heq⟩ := map_eq_some_iff.mp hj
  cases heq
  have hpeer := find?_some hj
  have hlt := mem_of_find?_eq_some hj
  refine ⟨_, entryAt_of_serverAt ?_ (mem_range.mp hlt), hadr, of_decide_eq_true hpeer⟩
  rw [serverAt, mem_zipIdx_iff_getElem?.mp hcon, bind_some]
  exact mem_zipIdx_iff_getElem?.mp hs

theorem find_isSome (h : Matches compareAdr icelist r p) : (find compareAdr icelist r).isSome := by
  obtain ⟨_, he, hadr, hid⟩ := h
  obtain ⟨s, hs, hlt, rfl⟩ := entryAt_eq_some he
  obtain ⟨con, hcon, hs⟩ := bind_eq_some_iff.mp hs
  rw [find, findSome?_isSome_iff]
  refine ⟨(con, p.con), mem_zipIdx_iff_getElem?.mpr hcon, ?_⟩
  rw [isSome_map, Icestate.find, findSome?_isSome_iff]
  refine ⟨(s, p.server), mem_zipIdx_iff_getElem?.mpr hs, ?_⟩
  rw [if_pos hadr, isSome_map, Iceserver.find, find?_isSome]
  exact ⟨p.peer, mem_range.mpr hlt, decide_eq_true hid⟩

/-- No other entry waits for the same reply. -/
def Single (icelist : List (Icestate Addr)) (r : Reply Addr) : Prop :=
  ∀ p q, Matches compareAdr icelist r p → Matches compareAdr icelist r q → p = q

variable {compareAdr}

theorem find_eq_some_iff (hsingle : Single compareAdr icelist r) :
    find compareAdr icelist r = some p ↔ Matches compareAdr icelist r p := by
  refine ⟨matches_of_find compareAdr, fun h => ?_⟩
  obtain ⟨q, hq⟩ := isSome_iff_exists.mp (find_isSome compareAdr h)
  rw [hq, hsingle q p (matches_of_find compareAdr hq) h]

theorem find_eq_none (h : ∀ p, ¬Matches compareAdr icelist r p) : find compareAdr icelist r = none := by
  cases hfind : find compareAdr icelist r with
  | none => rfl
  | some p => exact absurd (matches_of_find compareAdr hfind) (h p)

end Matching

/-! ## What a reply changes -/

section Acknowledged

variable {compareAdr : Addr → Addr → Bool} {icelist : List (Icestate Addr)} {r r' : Reply Addr} {p q : Pos}
  {now : BitVec 32} {rnd : Transactid}

variable (now rnd) in
theorem createperm_of_none (h : find compareAdr icelist r = none) :
    createperm compareAdr icelist r now rnd = icelist := by
  rw [createperm, h]

/-- The server at a place behind a reply. -/
theorem serverAt_createperm (h : find compareAdr icelist r = some p) (q : Pos) :
    serverAt (createperm compareAdr icelist r now rnd) q = (serverAt icelist q).map fun s =>
      if p.con = q.con ∧ p.server = q.server then (s.acknowledge r now p.peer).refresh p.server rnd else s := by
  rw [createperm, h, serverAt, serverAt, getElem?_modify]
  cases icelist[q.con]? with
  | none => rfl
  | some con =>
    by_cases hcon : p.con = q.con
    · simp [hcon, getElem?_modify]
    · simp [hcon]

section Fields

variable (s : Iceserver Addr) (r : Reply Addr) (now : BitVec 32) (j i : ℕ) (rnd : Transactid)

@[simp] theorem addr_acknowledge : (s.acknowledge r now j).addr = s.addr := by
  rw [Iceserver.acknowledge]
  split
  · rfl
  · split <;> rfl

@[simp] theorem peers_acknowledge : (s.acknowledge r now j).peers = s.peers := by
  rw [Iceserver.acknowledge]
  split
  · rfl
  · split <;> rfl

theorem peer_acknowledge {k : ℕ} (hk : k ≠ j) : (s.acknowledge r now j).peer k = s.peer k := by
  rw [Iceserver.acknowledge]
  split
  · exact if_neg hk
  · split
    · exact if_neg hk
    · rfl

/-- Acknowledging leaves the transaction id alone. -/
theorem stunrnd_acknowledge (k : ℕ) : ((s.acknowledge r now j).peer k).stunrnd = (s.peer k).stunrnd := by
  by_cases hk : k = j
  · rw [Iceserver.acknowledge]
    split
    · simp [Iceserver.setPeer, hk]
    · split
      · simp [Iceserver.setPeer, hk]
      · rfl
  · rw [peer_acknowledge s r now j hk]

@[simp] theorem addr_refresh : (s.refresh i rnd).addr = s.addr := rfl

@[simp] theorem peers_refresh : (s.refresh i rnd).peers = s.peers := rfl

theorem peer_refresh_self : ((s.refresh i rnd).peer i).stunrnd = rnd := by
  simp [Iceserver.refresh, Iceserver.setPeer]

theorem peer_refresh {k : ℕ} (hk : k ≠ i) : (s.refresh i rnd).peer k = s.peer k := if_neg hk

end Fields

/-- The other entries behind a reply whose entry has the server's number. -/
theorem entryAt_createperm (h : find compareAdr icelist r = some p) (hown : p.server = p.peer) (hq : q ≠ p) :
    entryAt (createperm compareAdr icelist r now rnd) q = entryAt icelist q := by
  rw [entryAt, entryAt, serverAt_createperm h]
  cases serverAt icelist q with
  | none => rfl
  | some s =>
    rw [map_some, bind_some, bind_some]
    split
    next hserver =>
      have hpeer : q.peer ≠ p.peer := fun hpeer => hq (Pos.ext hserver.1.symm hserver.2.symm hpeer)
      rw [addr_refresh, addr_acknowledge, peers_refresh, peers_acknowledge, peer_refresh _ _ _ (hown ▸ hpeer),
        peer_acknowledge _ _ _ _ hpeer]
    next => rfl

variable (now rnd) in
/-- The acknowledged entry. -/
theorem entryAt_createperm_self (h : find compareAdr icelist r = some p) :
    ∃ e, entryAt (createperm compareAdr icelist r now rnd) p = some e ∧
      e.2.stunrnd = if p.server = p.peer then rnd else r.transactid := by
  obtain ⟨_, he, -, hid⟩ := matches_of_find compareAdr h
  obtain ⟨s, hs, hlt, rfl⟩ := entryAt_eq_some he
  have hs' : serverAt (createperm compareAdr icelist r now rnd) p =
      some ((s.acknowledge r now p.peer).refresh p.server rnd) := by
    rw [serverAt_createperm h, hs, map_some, if_pos ⟨rfl, rfl⟩]
  refine ⟨_, entryAt_of_serverAt hs' (by simpa using hlt), ?_⟩
  split
  next hown => rw [← hown, peer_refresh_self]
  next hne => rw [peer_refresh _ _ _ (Ne.symm hne), stunrnd_acknowledge, hid]

end Acknowledged

/-! ## One entry -/

section Own

variable (compareAdr : Addr → Addr → Bool) {icelist : List (Icestate Addr)} {r : Reply Addr} {p q : Pos}
  {now : BitVec 32} {rnd : Transactid}

/-- A reply touches the entry that waits for it and no other. The entry gets a new transaction id, so that the reply
does nothing a second time, and every other entry is found by the reply to its own request. -/
structure OwnTransaction (icelist : List (Icestate Addr)) (r : Reply Addr) (now : BitVec 32) (rnd : Transactid) :
    Prop where
  frame : ∀ p, Matches compareAdr icelist r p →
    ∀ q ≠ p, entryAt (createperm compareAdr icelist r now rnd) q = entryAt icelist q
  replaced : ∀ p, Matches compareAdr icelist r p →
    ∀ e ∈ entryAt (createperm compareAdr icelist r now rnd) p, e.2.stunrnd ≠ r.transactid
  unmatched : (∀ p, ¬Matches compareAdr icelist r p) → createperm compareAdr icelist r now rnd = icelist
  once : ∀ now' rnd', createperm compareAdr (createperm compareAdr icelist r now rnd) r now' rnd' =
    createperm compareAdr icelist r now rnd
  answerable : ∀ r' q, Single compareAdr icelist r' → Matches compareAdr icelist r' q →
    ¬Matches compareAdr icelist r q → find compareAdr (createperm compareAdr icelist r now rnd) r' = some q

variable {compareAdr}

variable (now rnd) in
/-- An entry that waits for a reply behind another one, which has its id replaced. -/
theorem matches_createperm {r' : Reply Addr} (h : find compareAdr icelist r = some p) (hown : p.server = p.peer)
    (hid : r'.transactid ≠ rnd) :
    Matches compareAdr (createperm compareAdr icelist r now rnd) r' q ↔ q ≠ p ∧ Matches compareAdr icelist r' q := by
  constructor
  · rintro ⟨e, he, hadr, hmatch⟩
    have hq : q ≠ p := by
      rintro rfl
      obtain ⟨e', he', hrnd⟩ := entryAt_createperm_self now rnd h
      rw [he, Option.some.injEq] at he'
      rw [← he', if_pos hown, hmatch] at hrnd
      exact hid hrnd
    exact ⟨hq, e, entryAt_createperm h hown hq ▸ he, hadr, hmatch⟩
  · rintro ⟨hq, e, he, hmatch⟩
    exact ⟨e, (entryAt_createperm h hown hq).trans he, hmatch⟩

theorem ownTransaction_of_none (hfind : find compareAdr icelist r = none) :
    OwnTransaction compareAdr icelist r now rnd := by
  have hsame := createperm_of_none now rnd hfind
  have hnone : ∀ p, ¬Matches compareAdr icelist r p := fun p hp => by
    have hsome := find_isSome compareAdr hp
    rw [hfind] at hsome
    cases hsome
  refine ⟨fun p hp => absurd hp (hnone p), fun p hp => absurd hp (hnone p), fun _ => hsame, fun now' rnd' => ?_,
    fun r' q hsingle hq _ => ?_⟩
  · rw [hsame]
    exact createperm_of_none now' rnd' hfind
  · rw [hsame]
    exact (find_eq_some_iff hsingle).mpr hq

theorem ownTransaction_of_own (hsingle : Single compareAdr icelist r)
    (hfresh : ∀ q, ∀ e ∈ entryAt icelist q, e.2.stunrnd ≠ rnd) (hfind : find compareAdr icelist r = some p)
    (hown : p.server = p.peer) : OwnTransaction compareAdr icelist r now rnd := by
  have hp := matches_of_find compareAdr hfind
  -- No reply that an entry waits for carries the new id.
  have hid : ∀ {r' q}, Matches compareAdr icelist r' q → r'.transactid ≠ rnd := fun ⟨e, he, _, hid⟩ => hid ▸ hfresh _ e he
  refine ⟨fun q hq q' hne => ?_, fun q hq e he => ?_, fun hnone => absurd hp (hnone p), fun now' rnd' => ?_,
    fun r' q hsingle' hq hne => ?_⟩
  · rw [hsingle q p hq hp] at hne
    exact entryAt_createperm hfind hown hne
  · obtain ⟨e', he', hrnd⟩ := entryAt_createperm_self now rnd hfind
    rw [hsingle q p hq hp, mem_def, he', Option.some.injEq] at he
    rw [← he, hrnd, if_pos hown]
    exact (hid hp).symm
  · refine createperm_of_none now' rnd' (find_eq_none fun q hq => ?_)
    obtain ⟨hne, hq⟩ := (matches_createperm now rnd hfind hown (hid hp)).mp hq
    exact hne (hsingle q p hq hp)
  · have hkept : ∀ q, Matches compareAdr (createperm compareAdr icelist r now rnd) r' q ↔
        q ≠ p ∧ Matches compareAdr icelist r' q := fun _ => matches_createperm now rnd hfind hown (hid hq)
    refine (find_eq_some_iff fun a b ha hb => ?_).mpr ((hkept q).mpr ⟨fun heq => hne (heq ▸ hp), hq⟩)
    exact hsingle' a b ((hkept a).mp ha).2 ((hkept b).mp hb).2

/-- **A reply touches its own entry only, if the entry has the number of its server.** -/
theorem ownTransaction_iff (hsingle : Single compareAdr icelist r)
    (hfresh : ∀ q, ∀ e ∈ entryAt icelist q, e.2.stunrnd ≠ rnd) :
    OwnTransaction compareAdr icelist r now rnd ↔ ∀ p, Matches compareAdr icelist r p → p.server = p.peer := by
  constructor
  · intro hown p hp
    by_contra hne
    obtain ⟨e, he, hid⟩ := entryAt_createperm_self now rnd ((find_eq_some_iff hsingle).mpr hp)
    exact hown.replaced p hp e he (hid.trans (if_neg hne))
  · intro hown
    cases hfind : find compareAdr icelist r with
    | none => exact ownTransaction_of_none hfind
    | some p => exact ownTransaction_of_own hsingle hfresh hfind (hown p (matches_of_find compareAdr hfind))

/-- A server whose entries have the numbers of their slots for ids. -/
def numbered (addr peers : ℕ) : Iceserver ℕ := ⟨addr, none, none, peers, fun j => ⟨0, 0, (.ofNat 32 j, 0, 0), j⟩⟩

theorem entryAt_numbered {e : ℕ × Peer} (h : entryAt [⟨[numbered 0 0, numbered 1 2]⟩] p = some e) :
    p.con = 0 ∧ p.server = 1 ∧ p.peer < 2 ∧ e.2.stunrnd = (.ofNat 32 p.peer, 0, 0) := by
  obtain ⟨s, hs, hlt, rfl⟩ := entryAt_eq_some h
  rcases p with ⟨_ | c, _ | _ | i, j⟩ <;> simp [serverAt] at hs
  · subst hs
    cases hlt
  · subst hs
    exact ⟨rfl, rfl, hlt, rfl⟩

theorem single_numbered (r : Reply ℕ) : Single Nat.beq [⟨[numbered 0 0, numbered 1 2]⟩] r := by
  rintro p q ⟨e, hp, -, hid⟩ ⟨e', hq, -, hid'⟩
  obtain ⟨hcon, hserver, hlt, he⟩ := entryAt_numbered hp
  obtain ⟨hcon', hserver', hlt', he'⟩ := entryAt_numbered hq
  have hpeer : BitVec.ofNat 32 p.peer = BitVec.ofNat 32 q.peer :=
    congrArg Prod.fst ((he.symm.trans hid).trans (hid'.symm.trans he'))
  exact Pos.ext (hcon.trans hcon'.symm) (hserver.trans hserver'.symm) (by bv_omega)

theorem fresh_numbered : ∀ q, ∀ e ∈ entryAt [⟨[numbered 0 0, numbered 1 2]⟩] q, e.2.stunrnd ≠ (5, 0, 0) := by
  intro q e he hid
  obtain ⟨-, -, hlt, hid'⟩ := entryAt_numbered he
  have hpeer : BitVec.ofNat 32 q.peer = 5 := congrArg Prod.fst (hid'.symm.trans hid)
  bv_omega

/-- The reply to entry 1 of server 1. -/
theorem ownTransaction_one :
    OwnTransaction Nat.beq [⟨[numbered 0 0, numbered 1 2]⟩] ⟨1, (1, 0, 0), 0, none, none⟩ 1000 (5, 0, 0) := by
  refine (ownTransaction_iff (single_numbered _) fresh_numbered).mpr ?_
  rintro p ⟨e, hp, -, hid⟩
  obtain ⟨-, hserver, hlt, he⟩ := entryAt_numbered hp
  have hpeer : BitVec.ofNat 32 p.peer = 1 := congrArg Prod.fst (he.symm.trans hid)
  bv_omega

/-- The reply to entry 0 of server 1 leaves the id of entry 0, and gives entry 1 another. -/
theorem ownTransaction_zero : Single Nat.beq [⟨[numbered 0 0, numbered 1 2]⟩] ⟨1, (0, 0, 0), 0, none, none⟩ ∧
    (∀ q, ∀ e ∈ entryAt [⟨[numbered 0 0, numbered 1 2]⟩] q, e.2.stunrnd ≠ (5, 0, 0)) ∧
    ¬OwnTransaction Nat.beq [⟨[numbered 0 0, numbered 1 2]⟩] ⟨1, (0, 0, 0), 0, none, none⟩ 1000 (5, 0, 0) :=
  ⟨single_numbered _, fresh_numbered, fun h => h.replaced ⟨0, 1, 0⟩ ⟨_, rfl, rfl, rfl⟩ _ rfl rfl⟩

end Own

/-! ## Requests -/

section Requests

variable {s s' : Iceserver Addr} {rc i j : ℕ} {now interval : BitVec 32} {rnd id : Transactid} {req : Option Transactid}

/-- The entry for a candidate in `ICE_SendSpam`, which is added if there is none. A full server has no room for it. -/
def Iceserver.entry (s : Iceserver Addr) (rc : ℕ) (now : BitVec 32) (rnd : Transactid) : Option (Iceserver Addr × ℕ) :=
  match (List.range s.peers).find? fun i => (s.peer i).rc = rc with
  | some i => some (s, i)
  | none =>
    if s.peers = 32 then none
    else some ({ s.setPeer s.peers fun _ => ⟨now, now, rnd, rc⟩ with peers := s.peers + 1 }, s.peers)

/-- What `ICE_SendSpam` does to a relay: the server behind it, and the transaction id of the request that
`TURN_AuthorisePeer` makes. -/
def Iceserver.sendSpam (s : Iceserver Addr) (rc : ℕ) (now interval : BitVec 32) (rnd : Transactid) :
    Option (Iceserver Addr × Option Transactid) :=
  (s.entry rc now rnd).map fun (s, i) =>
    if ((s.peer i).retry - now).toInt ≤ 0 then
      (s.setPeer i fun p => { p with retry := now + interval }, some (s.peer i).stunrnd)
    else (s, none)

end Requests

end TurnPermission

end FteQuake
