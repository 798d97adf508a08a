import FteQuake.Common.Sizebuf
import FteQuake.Lib.SinglyLinked
import Mathlib.Data.List.Find
import Mathlib.Data.List.Nodup

/-!
# Hash tables

The tables of `qclib/hash.c`: an array of singly linked lists of buckets, which belong to who adds them. There are
three kinds of keys, each with its functions: names, names without regard to case, and numbers. `Discipline` is what
they differ in.

`Rep` says that a table holds some entries, the last added first. `run_isMap` is what lookups and enumeration find after
any run, as long as no removal by key meets an empty list and none by data meets a name that differs in its case only.
-/

namespace FteQuake

open List Nat Function

namespace HashTable

/-! ## Keys -/

/-- `Hash_Key`, before it is reduced. -/
def hashKey (name : List QByte) : BitVec 32 :=
  name.foldl (fun key (c : QByte) => key + ((key <<< 3) + (key >>> 28) + c.signExtend 32)) 0

/-- `Hash_KeyInsensitive`, before it is reduced. -/
def hashKeyInsensitive (name : List QByte) : BitVec 32 :=
  name.foldl (fun key (c : QByte) =>
    if 0x41 ≤ c ∧ c ≤ 0x5a then key + ((key <<< 3) + (key >>> 28) + (c.signExtend 32 - 0x41 + 0x61))
    else key + ((key <<< 3) + (key >>> 28) + c.signExtend 32)) 0

/-- `tolower`. -/
def toLower (c : QByte) : QByte := if 0x41 ≤ c ∧ c ≤ 0x5a then c + 0x20 else c

/-- `!stricmp`. -/
def stricmpEq (a b : List QByte) : Bool := a.map toLower = b.map toLower

/-- What the functions for a kind of keys do with them: the bucket of a key, how a lookup compares keys, and how a
removal by data does. -/
structure Discipline (κ : Type*) where
  slot : κ → ℕ → ℕ
  same : κ → κ → Bool
  sameRemove : κ → κ → Bool

/-- `Hash_Add`, `Hash_Get`, `Hash_GetNext`, `Hash_Remove`, `Hash_RemoveData` and `Hash_RemoveBucket`. -/
def names : Discipline (List QByte) where
  slot name modulus := (hashKey name).toNat % modulus
  same a b := a = b
  sameRemove a b := stricmpEq a b

/-- `Hash_AddInsensitive`, `Hash_GetInsensitive`, `Hash_GetInsensitiveBucket`, `Hash_GetNextInsensitive` and
`Hash_RemoveDataInsensitive`. -/
def namesInsensitive : Discipline (List QByte) where
  slot name modulus := (hashKeyInsensitive name).toNat % modulus
  same a b := stricmpEq a b
  sameRemove a b := stricmpEq a b

/-- `Hash_AddKey`, `Hash_GetKey`, `Hash_GetNextKey`, `Hash_RemoveKey` and `Hash_RemoveDataKey`. -/
def keys : Discipline (BitVec 32) where
  slot key modulus := key.toNat % modulus
  same a b := a = b
  sameRemove a b := a = b

/-! ## The code -/

/-- `hashtable_t`, and the fields of all buckets by their addresses. -/
structure Table (κ δ : Type*) where
  numbuckets : ℕ
  bucket : ℕ → Option ℕ
  next : ℕ → Option ℕ
  key : ℕ → κ
  data : ℕ → δ

/-- How a call can fail: it reads through a null pointer, or it needs more fuel. -/
inductive Stop
  | null
  | fuel
  deriving DecidableEq

variable {κ δ σ : Type*}

/-- `Hash_InitTable`, with cleared memory for the pointers. -/
def initTable (numbucks : ℕ) (junkKey : ℕ → κ) (junkData : ℕ → δ) (junkNext : ℕ → Option ℕ) : Table κ δ :=
  ⟨numbucks, fun _ => none, junkNext, junkKey, junkData⟩

variable (D : Discipline κ) (fuel : ℕ) (t : Table κ δ)

namespace Table

/-- The bucket number of a key. -/
def bucknum (k : κ) : ℕ := D.slot k t.numbuckets

/-- A loop that looks for a bucket. -/
def find (sel : ℕ → Bool) (buck : Option ℕ) : Except Stop (Option ℕ) :=
  (Linked.find t.next sel fuel buck).elim (.error .fuel) .ok

/-- `Hash_GetInsensitiveBucket`. -/
def getBucket (k : κ) : Except Stop (Option ℕ) :=
  t.find fuel (fun a => D.same k (t.key a)) (t.bucket (t.bucknum D k))

/-- `Hash_Get`, `Hash_GetInsensitive` and `Hash_GetKey`. -/
def get (k : κ) : Except Stop (Option δ) := (t.getBucket D fuel k).map fun buck => buck.map t.data

/-- `Hash_GetNext`, `Hash_GetNextInsensitive` and `Hash_GetNextKey`. -/
def getNext [DecidableEq δ] (k : κ) (old : δ) : Except Stop (Option δ) :=
  (t.find fuel (fun a => t.data a = old) (t.bucket (t.bucknum D k))).bind fun found =>
    match found with
    | none => .ok none
    | some buck => (t.find fuel (fun a => D.same k (t.key a)) (t.next buck)).map fun buck => buck.map t.data

/-- `Hash_Add`, `Hash_AddInsensitive` and `Hash_AddKey`. -/
def add (k : κ) (data : δ) (buck : ℕ) : Table κ δ :=
  { t with
    data := Function.update t.data buck data
    key := Function.update t.key buck k
    next := Function.update t.next buck (t.bucket (t.bucknum D k))
    bucket := Function.update t.bucket (t.bucknum D k) (some buck) }

/-- `Hash_Remove` and `Hash_RemoveKey`. -/
def remove (k : κ) : Except Stop (Table κ δ) :=
  match t.bucket (t.bucknum D k) with
  | none => .error .null
  | some buck =>
    if D.same k (t.key buck) then .ok { t with bucket := Function.update t.bucket (t.bucknum D k) (t.next buck) }
    else
      (Linked.unlinkAfter t.next (fun a => D.same k (t.key a)) fuel buck).elim (.error .fuel) fun next =>
        .ok { t with next }

/-- The loop that takes a bucket out by the link to it. -/
def removeLink (k : κ) (sel : ℕ → Bool) : Except Stop (Table κ δ) :=
  (Linked.unlinkLink (t.bucket (t.bucknum D k)) t.next sel fuel none).elim (.error .fuel) fun r =>
    .ok { t with bucket := Function.update t.bucket (t.bucknum D k) r.1, next := r.2 }

/-- `Hash_RemoveData`, `Hash_RemoveDataInsensitive` and `Hash_RemoveDataKey`. -/
def removeData [DecidableEq δ] (k : κ) (data : δ) : Except Stop (Table κ δ) :=
  t.removeLink D fuel k fun a => t.data a = data && D.sameRemove k (t.key a)

/-- `Hash_RemoveBucket`. -/
def removeBucket (k : κ) (buck : ℕ) : Except Stop (Table κ δ) :=
  t.removeLink D fuel k fun a => a = buck && D.sameRemove k (t.key a)

end Table

/-- The loop of `Hash_Enumerate` over a list, with the data that the callback was given. It has a state of its own and
may change the table. -/
def enumerateChain (callback : δ → σ → Table κ δ → σ × Table κ δ) :
    ℕ → Option ℕ → σ → Table κ δ → Except Stop (List δ × σ × Table κ δ)
  | 0, _, _, _ => .error .fuel
  | _ + 1, none, ctx, t => .ok ([], ctx, t)
  | fuel + 1, some a, ctx, t =>
    let data := t.data a
    let buck := t.next a
    (enumerateChain callback fuel buck (callback data ctx t).1 (callback data ctx t).2).map fun r => (data :: r.1, r.2)

/-- The loop of `Hash_Enumerate` over so many lists, from `bucknum` on. -/
def enumerateFrom (callback : δ → σ → Table κ δ → σ × Table κ δ) :
    ℕ → ℕ → σ → Table κ δ → Except Stop (List δ × σ × Table κ δ)
  | 0, _, ctx, t => .ok ([], ctx, t)
  | n + 1, bucknum, ctx, t =>
    (enumerateChain callback fuel (t.bucket bucknum) ctx t).bind fun r =>
      (enumerateFrom callback n (bucknum + 1) r.2.1 r.2.2).map fun r' => (r.1 ++ r'.1, r'.2)

/-- `Hash_Enumerate`. -/
def enumerate (callback : δ → σ → Table κ δ → σ × Table κ δ) (ctx : σ) : Except Stop (List δ × σ × Table κ δ) :=
  enumerateFrom fuel callback t.numbuckets 0 ctx t

/-- What `Hash_GetNext` returns from one entry on, until it returns null. -/
def getRest [DecidableEq δ] (k : κ) : ℕ → δ → Except Stop (List δ)
  | 0, _ => .error .fuel
  | n + 1, old =>
    (t.getNext D fuel k old).bind fun found =>
      match found with
      | none => .ok []
      | some data => (getRest k n data).map (data :: ·)

/-- The calls that change a table. -/
inductive Op (κ δ : Type*)
  | add (k : κ) (data : δ) (buck : ℕ)
  | remove (k : κ)
  | removeData (k : κ) (data : δ)
  | removeBucket (k : κ) (buck : ℕ)

/-- Do a call. -/
def exec [DecidableEq δ] (t : Table κ δ) : Op κ δ → Except Stop (Table κ δ)
  | .add k data buck => .ok (t.add D k data buck)
  | .remove k => t.remove D fuel k
  | .removeData k data => t.removeData D fuel k data
  | .removeBucket k buck => t.removeBucket D fuel k buck

/-- Do calls one after another. -/
def run [DecidableEq δ] : Table κ δ → List (Op κ δ) → Except Stop (Table κ δ)
  | t, [] => .ok t
  | t, op :: ops => (exec D fuel t op).bind fun t => run t ops

/-! ## Maps -/

/-- What was added, and where. -/
structure Entry (κ δ : Type*) where
  addr : ℕ
  key : κ
  data : δ

/-- What a call does to the entries of a map, the last added first. -/
def Op.effect [DecidableEq δ] (live : List (Entry κ δ)) : Op κ δ → List (Entry κ δ)
  | .add k data buck => ⟨buck, k, data⟩ :: live
  | .remove k => live.eraseP fun e => D.same k e.key
  | .removeData k data => live.eraseP fun e => e.data = data && D.same k e.key
  | .removeBucket k buck => live.eraseP fun e => e.addr = buck && D.same k e.key

/-- The entries of one list. -/
def chain (n : ℕ) (live : List (Entry κ δ)) (i : ℕ) : List (Entry κ δ) := live.filter fun e => D.slot e.key n = i

/-- When a call does what it is for. A bucket is added that is in no list. A removal by key finds some list. What a removal
by data or bucket finds has the very key. -/
def Op.Meets [DecidableEq δ] (n : ℕ) (live : List (Entry κ δ)) : Op κ δ → Prop
  | .add _ _ buck => ∀ e ∈ live, e.addr ≠ buck
  | .remove k => chain D n live (D.slot k n) ≠ []
  | .removeData k data => ∀ e,
    (chain D n live (D.slot k n)).find? (fun e => e.data = data && D.sameRemove k e.key) = some e → D.same k e.key
  | .removeBucket k buck => ∀ e,
    (chain D n live (D.slot k n)).find? (fun e => e.addr = buck && D.sameRemove k e.key) = some e → D.same k e.key

/-- The entries after some calls. -/
def entriesAfter [DecidableEq δ] (live : List (Entry κ δ)) (ops : List (Op κ δ)) : List (Entry κ δ) :=
  ops.foldl (Op.effect D) live

/-- Every call of a run does what it is for. -/
def Meets [DecidableEq δ] (n : ℕ) : List (Entry κ δ) → List (Op κ δ) → Prop
  | _, [] => True
  | live, op :: ops => op.Meets D n live ∧ Meets n (op.effect D live) ops

/-- A table holds some entries: they are in the lists of their keys, each list in their order. -/
structure Rep (n : ℕ) (t : Table κ δ) (live : List (Entry κ δ)) : Prop where
  numbuckets : t.numbuckets = n
  nodup : (live.map Entry.addr).Nodup
  key : ∀ e ∈ live, t.key e.addr = e.key
  data : ∀ e ∈ live, t.data e.addr = e.data
  chains : ∀ i < n, Linked t.next (t.bucket i) ((chain D n live i).map Entry.addr)

/-- While there are only some entries, a callback leaves the table as it is or takes the entry out that it is given. -/
def Removes (n : ℕ) (entries : List (Entry κ δ)) (callback : δ → σ → Table κ δ → σ × Table κ δ) : Prop :=
  ∀ t live ctx, live.Sublist entries → Rep D n t live → ∀ e ∈ live,
    Rep D n (callback e.data ctx t).2 live ∨ Rep D n (callback e.data ctx t).2 (live.filter (·.addr ≠ e.addr))

/-- The table is a map with some entries. -/
structure IsMap [DecidableEq δ] (n : ℕ) (t : Table κ δ) (live : List (Entry κ δ)) : Prop where
  get : ∀ k, t.get D fuel k = .ok ((live.find? fun e => D.same k e.key).map Entry.data)
  getNext : ∀ k before e after, live.filter (fun e => D.same k e.key) = before ++ e :: after →
    (∀ e' ∈ chain D n live (D.slot k n), ∀ e'' ∈ chain D n live (D.slot k n), e'.data = e''.data → e' = e'') →
    getRest D fuel t k fuel e.data = .ok (after.map Entry.data)
  enumerate : ∀ (σ : Type) (callback : δ → σ → Table κ δ → σ × Table κ δ) ctx, Removes D n live callback →
    ∃ visited ctx' t', enumerate fuel t callback ctx = .ok (visited, ctx', t') ∧ visited.Perm (live.map Entry.data)

/-! ## The kinds of keys -/

/-- Keys that are the same have one bucket, and are the same to a removal. -/
structure Lawful (D : Discipline κ) : Prop where
  slot_lt : ∀ k {n}, 0 < n → D.slot k n < n
  slot_eq : ∀ {k k'} n, D.same k k' → D.slot k' n = D.slot k n
  sameRemove : ∀ {k k'}, D.same k k' → D.sameRemove k k'

theorem names_lawful : Lawful names where
  slot_lt _ _ h := mod_lt _ h
  slot_eq n h := by rw [of_decide_eq_true h]
  sameRemove h := by
    rw [of_decide_eq_true h]
    exact decide_eq_true rfl

theorem keys_lawful : Lawful keys where
  slot_lt _ _ h := mod_lt _ h
  slot_eq n h := by rw [of_decide_eq_true h]
  sameRemove h := h

theorem signExtend_toLower : ∀ c : QByte, (toLower c).signExtend 32 =
    if 0x41 ≤ c ∧ c ≤ 0x5a then c.signExtend 32 - 0x41 + 0x61 else c.signExtend 32 := by
  decide +kernel

/-- Without regard to case a key is that of the name in lower case. -/
theorem hashKeyInsensitive_eq (name : List QByte) : hashKeyInsensitive name = hashKey (name.map toLower) := by
  unfold hashKeyInsensitive hashKey
  rw [foldl_map]
  congr 1
  funext key c
  rw [signExtend_toLower]
  split_ifs <;> rfl

theorem namesInsensitive_lawful : Lawful namesInsensitive where
  slot_lt _ _ h := mod_lt _ h
  slot_eq n h := by
    change (hashKeyInsensitive _).toNat % n = (hashKeyInsensitive _).toNat % n
    rw [hashKeyInsensitive_eq, hashKeyInsensitive_eq, of_decide_eq_true h]
  sameRemove h := h

/-! ## Lists of entries -/

section Lists

variable {α : Type*} {l : List α} {p q : α → Bool}

theorem eraseP_congr (h : ∀ x ∈ l, p x = q x) : l.eraseP p = l.eraseP q := by
  induction l with
  | nil => rfl
  | cons x l ih =>
    rw [eraseP_cons, eraseP_cons, h x mem_cons_self, ih fun y hy => h y (.tail _ hy)]

/-- Taking out what a filter drops does not matter to it. -/
theorem filter_eraseP_of_not (h : ∀ x, q x → ¬ p x) : (l.eraseP q).filter p = l.filter p := by
  induction l with
  | nil => rfl
  | cons x l ih =>
    rw [eraseP_cons]
    cases hq : q x
    · rw [cond_false, filter_cons, filter_cons, ih]
    · rw [cond_true, filter_cons, if_neg (h x hq)]

/-- A weaker test takes out the same, if what it finds meets the stronger one. -/
theorem eraseP_eq_of_find? (hle : ∀ x, q x → p x) (h : ∀ x, l.find? p = some x → q x) : l.eraseP p = l.eraseP q := by
  induction l with
  | nil => rfl
  | cons x l ih =>
    rw [eraseP_cons, eraseP_cons]
    rw [find?_cons] at h
    cases hp : p x
    · have hq : q x = false := Bool.eq_false_iff.mpr fun hq => absurd (hle x hq) (by simp [hp])
      rw [hp] at h
      rw [hq, cond_false, cond_false, ih h]
    · rw [hp] at h
      rw [h x rfl, cond_true, cond_true]

/-- A list in which elements have numbers, number by number. -/
theorem flatMap_filter_perm (f : α → ℕ) (n : ℕ) :
    ((List.range n).flatMap fun i => l.filter (f · = i)).Perm (l.filter (f · < n)) := by
  induction n with
  | zero => simp
  | succ n ih =>
    rw [range_succ, flatMap_append, flatMap_singleton]
    refine (ih.append_right _).trans ?_
    have hsplit := filter_append_perm (f · < n) (l.filter (f · < n + 1))
    rw [filter_filter, filter_filter] at hsplit
    refine List.Perm.trans (List.Perm.of_eq ?_) hsplit
    congr 1
    · refine filter_congr fun x _ => ?_
      rw [Bool.eq_iff_iff]
      simp only [Bool.and_eq_true, decide_eq_true_iff]
      omega
    · refine filter_congr fun x _ => ?_
      rw [Bool.eq_iff_iff]
      simp only [Bool.and_eq_true, Bool.not_eq_true', decide_eq_true_iff, decide_eq_false_iff_not]
      omega

end Lists

/-! ## Tables that hold entries -/

variable {D} {fuel} {t} {n i : ℕ} {live : List (Entry κ δ)} {e : Entry κ δ} {k : κ}

theorem mem_chain : e ∈ chain D n live i ↔ e ∈ live ∧ D.slot e.key n = i := by
  rw [chain, mem_filter, decide_eq_true_iff]

theorem length_chain_le : (chain D n live i).length ≤ live.length := length_filter_le _ _

namespace Rep

theorem init (n : ℕ) (junkKey : ℕ → κ) (junkData : ℕ → δ) (junkNext : ℕ → Option ℕ) :
    Rep D n (initTable n junkKey junkData junkNext) [] :=
  ⟨rfl, nodup_nil, by simp, by simp, fun _ _ => .nil⟩

theorem addr_inj (h : Rep D n t live) {e' : Entry κ δ} (he : e ∈ live) (he' : e' ∈ live) (heq : e.addr = e'.addr) : e = e' :=
  inj_on_of_nodup_map h.nodup he he' heq

/-- The entries of two lists are in different places. -/
theorem addr_notMem (h : Rep D n t live) {j : ℕ} (hij : i ≠ j) (he : e ∈ chain D n live j) :
    e.addr ∉ (chain D n live i).map Entry.addr := by
  intro hmem
  obtain ⟨e', he', heq⟩ := mem_map.mp hmem
  obtain ⟨hlive, hj⟩ := mem_chain.mp he
  obtain ⟨hlive', hi⟩ := mem_chain.mp he'
  rw [h.addr_inj hlive' hlive heq] at hi
  exact hij (hi.symm.trans hj)

/-- A loop over a part of a list finds its first entry that is looked for. -/
theorem find_part {sel : ℕ → Bool} {sel' : Entry κ δ → Bool} (hsel : ∀ e ∈ live, sel e.addr = sel' e)
    {buck : Option ℕ} {part : List (Entry κ δ)} (hlink : Linked t.next buck (part.map Entry.addr))
    (hpart : ∀ e ∈ part, e ∈ live) (hfuel : part.length < fuel) :
    t.find fuel sel buck = .ok ((part.find? sel').map Entry.addr) := by
  rw [Table.find, Linked.find_eq hlink (by rwa [length_map]), find?_map]
  have hcongr : part.find? (sel ∘ Entry.addr) = part.find? sel' := find?_congr fun e he => hsel e (hpart e he)
  rw [hcongr]
  rfl

theorem same_eq (h : Rep D n t live) (k : κ) : ∀ e ∈ live, D.same k (t.key e.addr) = D.same k e.key := by
  intro e he
  rw [h.key e he]

theorem find?_chain (hD : Lawful D) (live : List (Entry κ δ)) (k : κ) :
    (chain D n live (D.slot k n)).find? (fun e => D.same k e.key) = live.find? fun e => D.same k e.key := by
  rw [chain, find?_filter]
  refine find?_congr fun e _ => ?_
  rw [Bool.eq_iff_iff, decide_eq_true_iff]
  exact ⟨fun h => h.2, fun h => ⟨decide_eq_true (hD.slot_eq n h), h⟩⟩

/-- `Hash_Get` finds the entry that was added last. -/
theorem get (hD : Lawful D) (hn : 0 < n) (h : Rep D n t live) (hfuel : live.length < fuel) (k : κ) :
    t.get D fuel k = .ok ((live.find? fun e => D.same k e.key).map Entry.data) := by
  have hbuck : t.bucknum D k = D.slot k n := by rw [Table.bucknum, h.numbuckets]
  rw [Table.get, Table.getBucket, hbuck, find_part (h.same_eq k) (h.chains _ (hD.slot_lt k hn))
    (fun e he => (mem_chain.mp he).1) (length_chain_le.trans_lt hfuel), find?_chain hD]
  cases hfound : live.find? fun e => D.same k e.key with
  | none => rfl
  | some e =>
    change Except.ok (some (t.data e.addr)) = .ok (some e.data)
    rw [h.data e (mem_of_find?_eq_some hfound)]

/-- `Hash_GetNext` finds the entry that follows, if the data tells entries apart. -/
theorem getNext [DecidableEq δ] (hD : Lawful D) (hn : 0 < n) (h : Rep D n t live) (hfuel : live.length < fuel)
    {before after : List (Entry κ δ)} (hsplit : live.filter (fun e => D.same k e.key) = before ++ e :: after)
    (hdata : ∀ e' ∈ chain D n live (D.slot k n), ∀ e'' ∈ chain D n live (D.slot k n), e'.data = e''.data → e' = e'') :
    t.getNext D fuel k e.data = .ok (after.head?.map Entry.data) := by
  have hbuck : t.bucknum D k = D.slot k n := by rw [Table.bucknum, h.numbuckets]
  have hmem : e ∈ live.filter fun e => D.same k e.key := by
    rw [hsplit]
    exact mem_append_right _ (.head _)
  obtain ⟨hlive, hsame⟩ := mem_filter.mp hmem
  have hchain : e ∈ chain D n live (D.slot k n) := mem_chain.mpr ⟨hlive, hD.slot_eq n hsame⟩
  have hdecide : ∀ e' ∈ live, decide (t.data e'.addr = e.data) = decide (e'.data = e.data) := by
    intro e' he'
    rw [h.data e' he']
  rw [Table.getNext, hbuck, find_part hdecide (h.chains _ (hD.slot_lt k hn)) (fun e he => (mem_chain.mp he).1)
    (length_chain_le.trans_lt hfuel)]
  -- the entry itself is found first
  have hfirst : (chain D n live (D.slot k n)).find? (fun e' => e'.data = e.data) = some e := by
    cases hfound : (chain D n live (D.slot k n)).find? fun e' => e'.data = e.data with
    | none => exact absurd (decide_eq_true rfl) (find?_eq_none.mp hfound e hchain)
    | some e' =>
      have hsame' := find?_some hfound
      exact congrArg some (hdata e' (mem_of_find?_eq_some hfound) e hchain (of_decide_eq_true hsame'))
  rw [hfirst]
  obtain ⟨xs, ys, hxs⟩ := append_of_mem hchain
  have hlink := h.chains _ (hD.slot_lt k hn)
  rw [hxs, map_append, map_cons] at hlink
  have hlive' : ∀ e' ∈ ys, e' ∈ live := fun e' he' =>
    (mem_chain.mp (hxs ▸ mem_append_right _ (.tail _ he'))).1
  have hlen : ys.length < fuel := by
    have hle : (chain D n live (D.slot k n)).length < fuel := length_chain_le.trans_lt hfuel
    rw [hxs, length_append, length_cons] at hle
    omega
  change (t.find fuel _ (t.next e.addr)).map _ = _
  rw [find_part (h.same_eq k) hlink.next_of_append hlive' hlen]
  -- of the entries with the key the same are behind it
  have hafter : ys.filter (fun e => D.same k e.key) = after := by
    have hfilter : (chain D n live (D.slot k n)).filter (fun e => D.same k e.key) = before ++ e :: after := by
      rw [← hsplit, chain, filter_filter]
      refine filter_congr fun e' _ => ?_
      cases hsame' : D.same k e'.key
      · exact Bool.false_and _
      · rw [Bool.true_and, decide_eq_true_iff]
        exact hD.slot_eq n hsame'
    rw [hxs, filter_append, filter_cons, if_pos hsame] at hfilter
    have hnd : (live.filter fun e => D.same k e.key).Nodup := (List.Nodup.of_map _ h.nodup).filter _
    rw [hsplit] at hnd
    have hnd' : e ∉ before ∧ e ∉ after := by
      rw [nodup_append] at hnd
      exact ⟨fun hb => hnd.2.2 e hb e (.head _) rfl, (nodup_cons.mp hnd.2.1).1⟩
    exact ((append_cons_inj_of_notMem hnd'.1 hnd'.2).mp hfilter.symm).2.2.symm
  rw [← hafter, head?_filter]
  cases hfound : ys.find? fun e => D.same k e.key with
  | none => rfl
  | some e' =>
    change Except.ok (some (t.data e'.addr)) = .ok (some e'.data)
    rw [h.data e' (hlive' e' (mem_of_find?_eq_some hfound))]

end Rep

/-! ## Changing tables -/

namespace Rep

/-- `Hash_Add` adds an entry before the others. -/
theorem add (h : Rep D n t live) {data : δ} {buck : ℕ} (hfresh : ∀ e ∈ live, e.addr ≠ buck) :
    Rep D n (t.add D k data buck) (⟨buck, k, data⟩ :: live) := by
  have hbuck : t.bucknum D k = D.slot k n := by rw [Table.bucknum, h.numbuckets]
  have hnext : ∀ i, ∀ a ∈ (chain D n live i).map Entry.addr, (t.add D k data buck).next a = t.next a := by
    intro i a ha
    obtain ⟨e, he, rfl⟩ := mem_map.mp ha
    exact update_of_ne (hfresh e (mem_chain.mp he).1) _ _
  refine ⟨h.numbuckets, ?_, ?_, ?_, ?_⟩
  · rw [map_cons, nodup_cons]
    refine ⟨fun hmem => ?_, h.nodup⟩
    obtain ⟨e, he, heq⟩ := mem_map.mp hmem
    exact hfresh e he heq
  · rw [forall_mem_cons]
    exact ⟨update_self .., fun e he => (update_of_ne (hfresh e he) _ _).trans (h.key e he)⟩
  · rw [forall_mem_cons]
    exact ⟨update_self .., fun e he => (update_of_ne (hfresh e he) _ _).trans (h.data e he)⟩
  · intro i hi
    change Linked _ (update t.bucket (t.bucknum D k) (some buck) i) _
    rw [hbuck, chain, filter_cons]
    by_cases hik : D.slot k n = i
    · rw [if_pos (decide_eq_true hik), hik, update_self, map_cons]
      refine .cons ?_
      change Linked _ (update t.next buck (t.bucket (t.bucknum D k)) buck) _
      rw [update_self, hbuck, hik]
      exact (h.chains i hi).congr (hnext i)
    · rw [if_neg fun hd => hik (of_decide_eq_true hd), update_of_ne (Ne.symm hik)]
      exact (h.chains i hi).congr (hnext i)

/-- A call took the first entry of a list out that was looked for: that list has one less, and only the links of its entries
may be others. -/
theorem unlink (h : Rep D n t live) {sel : Entry κ δ → Bool} {head : Option ℕ} {next : ℕ → Option ℕ}
    (hlink : Linked next head (((chain D n live i).eraseP sel).map Entry.addr))
    (hkept : ∀ a, a ∉ (chain D n live i).map Entry.addr → next a = t.next a) :
    Rep D n { t with bucket := update t.bucket i head, next := next }
      (live.eraseP fun e => sel e && decide (D.slot e.key n = i)) := by
  have hmem : ∀ e ∈ live.eraseP fun e => sel e && decide (D.slot e.key n = i), e ∈ live :=
    fun e he => eraseP_sublist.mem he
  refine ⟨h.numbuckets, h.nodup.sublist (eraseP_sublist.map _), fun e he => h.key e (hmem e he),
    fun e he => h.data e (hmem e he), fun j hj => ?_⟩
  change Linked next (update t.bucket i head j) _
  by_cases hij : j = i
  · subst hij
    rw [update_self, chain, ← eraseP_filter]
    exact hlink
  · have hsame : chain D n (live.eraseP fun e => sel e && decide (D.slot e.key n = i)) j = chain D n live j := by
      refine filter_eraseP_of_not fun e he hj => hij ?_
      exact (of_decide_eq_true hj).symm.trans (of_decide_eq_true (Bool.and_eq_true _ _ ▸ he).2)
    rw [update_of_ne hij, hsame]
    refine (h.chains j hj).congr fun a ha => hkept a ?_
    obtain ⟨e, he, rfl⟩ := mem_map.mp ha
    exact h.addr_notMem (Ne.symm hij) he

theorem eraseP_map_addr {sel : ℕ → Bool} {sel' : Entry κ δ → Bool} (hsel : ∀ e ∈ live, sel e.addr = sel' e) :
    ((chain D n live i).map Entry.addr).eraseP sel = ((chain D n live i).eraseP sel').map Entry.addr := by
  rw [eraseP_map]
  exact congrArg (List.map Entry.addr) (eraseP_congr fun e he => hsel e (mem_chain.mp he).1)

theorem nodup_chain (h : Rep D n t live) (i : ℕ) : ((chain D n live i).map Entry.addr).Nodup :=
  h.nodup.sublist (filter_sublist.map _)

/-- A removal by the link takes the first entry of the list out that it looks for. -/
theorem removeLink (hD : Lawful D) (hn : 0 < n) (h : Rep D n t live) (hfuel : live.length < fuel) {sel : ℕ → Bool}
    {sel' : Entry κ δ → Bool} (hsel : ∀ e ∈ live, sel e.addr = sel' e) : ∃ t', t.removeLink D fuel k sel = .ok t' ∧
      Rep D n t' (live.eraseP fun e => sel' e && decide (D.slot e.key n = D.slot k n)) := by
  have hbuck : t.bucknum D k = D.slot k n := by rw [Table.bucknum, h.numbuckets]
  obtain ⟨head, next, hrun, hlink, hkept⟩ := @Linked.unlinkLink_eq _ _ sel _ _ _ fuel (h.chains _ (hD.slot_lt k hn))
    (h.nodup_chain _) (by rw [length_map]; exact length_chain_le.trans_lt hfuel)
  rw [eraseP_map_addr hsel] at hlink
  refine ⟨_, ?_, h.unlink hlink hkept⟩
  rw [Table.removeLink, hbuck, hrun]
  rfl

/-- `Hash_Remove` takes the first entry with the key out, if its list is not empty. -/
theorem remove (hD : Lawful D) (hn : 0 < n) (h : Rep D n t live) (hfuel : live.length < fuel)
    (hne : chain D n live (D.slot k n) ≠ []) : ∃ t', t.remove D fuel k = .ok t' ∧
      Rep D n t' (live.eraseP fun e => D.same k e.key) := by
  have hbuck : t.bucknum D k = D.slot k n := by rw [Table.bucknum, h.numbuckets]
  obtain ⟨first, rest, hchain⟩ := exists_cons_of_ne_nil hne
  have hlink := h.chains _ (hD.slot_lt k hn)
  have hnd := h.nodup_chain (D.slot k n)
  have hsel := h.same_eq k
  have hunlink := @unlink _ _ D t n (D.slot k n) live h fun e => D.same k e.key
  have herase : (live.eraseP fun e => D.same k e.key && decide (D.slot e.key n = D.slot k n)) =
      live.eraseP fun e => D.same k e.key := by
    refine eraseP_congr fun e _ => ?_
    cases hsame : D.same k e.key
    · rfl
    · rw [Bool.true_and, decide_eq_true_iff]
      exact hD.slot_eq n hsame
  rw [herase, ← @eraseP_map_addr _ _ D n _ live (fun a => D.same k (t.key a)) _ hsel, hchain, map_cons] at hunlink
  rw [hchain, map_cons] at hlink hnd
  rw [Table.remove, hbuck]
  generalize hhead : t.bucket (D.slot k n) = head at hlink
  cases hlink with
  | cons hlink =>
    dsimp only
    split_ifs with hfirst
    · refine ⟨_, rfl, hunlink ?_ fun _ _ => rfl⟩
      rwa [eraseP_cons, hfirst, cond_true]
    · have hlen : (chain D n live (D.slot k n)).length < fuel := length_chain_le.trans_lt hfuel
      rw [hchain, length_cons] at hlen
      obtain ⟨next, hrun, hlist, hkept⟩ := @Linked.unlinkAfter_eq _ _ (fun a => D.same k (t.key a)) _ _ _ fuel hlink hnd
        (by rw [length_map]; omega)
      refine ⟨{ t with next }, ?_, ?_⟩
      · rw [hrun]
        rfl
      · have hsame : ({ t with bucket := update t.bucket (D.slot k n) (some first.addr), next } : Table κ δ) =
            { t with next } := by
          rw [← hhead, update_eq_self]
        rw [← hsame]
        refine hunlink ?_ hkept
        rw [eraseP_cons, Bool.eq_false_iff.mpr hfirst, cond_false]
        exact .cons hlist

end Rep

/-- A removal by the link that finds an entry with the very key in the list, if any, takes out the first of all. -/
theorem Rep.removeWhere (hD : Lawful D) (hn : 0 < n) (h : Rep D n t live) (hfuel : live.length < fuel) {sel : ℕ → Bool}
    {about : Entry κ δ → Bool} (hsel : ∀ e ∈ live, sel e.addr = (about e && D.sameRemove k e.key))
    (hfind : ∀ e, (chain D n live (D.slot k n)).find? (fun e => about e && D.sameRemove k e.key) = some e → D.same k e.key) :
    ∃ t', t.removeLink D fuel k sel = .ok t' ∧ Rep D n t' (live.eraseP fun e => about e && D.same k e.key) := by
  obtain ⟨t', hrun, hrep⟩ := h.removeLink hD hn hfuel hsel
  refine ⟨t', hrun, ?_⟩
  have herase : (live.eraseP fun e => about e && D.sameRemove k e.key && decide (D.slot e.key n = D.slot k n)) =
      live.eraseP fun e => about e && D.same k e.key := by
    refine eraseP_eq_of_find? (fun e he => ?_) fun e he => ?_
    · obtain ⟨habout, hsame⟩ := Bool.and_eq_true_iff.mp he
      rw [habout, hD.sameRemove hsame, Bool.true_and, Bool.true_and, decide_eq_true_iff]
      exact hD.slot_eq n hsame
    · have hfound := find?_some he
      rw [Bool.and_eq_true, Bool.and_eq_true] at hfound
      refine Bool.and_eq_true_iff.mpr ⟨hfound.1.1, hfind e ?_⟩
      rw [chain, find?_filter, ← he]
      refine find?_congr fun e _ => ?_
      rw [Bool.eq_iff_iff, decide_eq_true_iff, and_comm, ← Bool.and_eq_true]
  rwa [herase] at hrep

/-- A call that meets its condition does to the entries what it is for. -/
theorem Rep.exec [DecidableEq δ] (hD : Lawful D) (hn : 0 < n) (h : Rep D n t live) (hfuel : live.length < fuel)
    {op : Op κ δ} (hop : op.Meets D n live) : ∃ t', exec D fuel t op = .ok t' ∧ Rep D n t' (op.effect D live) := by
  cases op with
  | add k data buck => exact ⟨_, rfl, h.add hop⟩
  | remove k => exact h.remove hD hn hfuel hop
  | removeData k data => exact h.removeWhere hD hn hfuel (fun e he => by rw [h.data e he, h.key e he]) hop
  | removeBucket k buck => exact h.removeWhere hD hn hfuel (fun e he => by rw [h.key e he]) hop

theorem length_effect_le [DecidableEq δ] (op : Op κ δ) : (op.effect D live).length ≤ live.length + 1 := by
  cases op with
  | add k data buck => exact le_rfl
  | remove k => exact length_eraseP_le.trans (le_succ _)
  | removeData k data => exact length_eraseP_le.trans (le_succ _)
  | removeBucket k buck => exact length_eraseP_le.trans (le_succ _)

theorem Rep.run [DecidableEq δ] (hD : Lawful D) (hn : 0 < n) (h : Rep D n t live) {ops : List (Op κ δ)}
    (hops : Meets D n live ops) (hfuel : live.length + ops.length < fuel) :
    ∃ t', run D fuel t ops = .ok t' ∧ Rep D n t' (entriesAfter D live ops) ∧
      (entriesAfter D live ops).length ≤ live.length + ops.length := by
  induction ops generalizing t live with
  | nil => exact ⟨t, rfl, h, le_rfl⟩
  | cons op ops ih =>
    rw [length_cons] at hfuel
    obtain ⟨t₁, hexec, hrep⟩ := h.exec hD hn (by omega : live.length < fuel) hops.1
    have hlen := @length_effect_le _ _ D live _ op
    obtain ⟨t', hrun, hrep', hlen'⟩ := ih hrep hops.2 (by omega)
    refine ⟨t', ?_, hrep', ?_⟩
    · rw [HashTable.run, hexec]
      exact hrun
    · refine hlen'.trans ?_
      rw [length_cons]
      omega

/-! ## Enumeration -/

/-- A pointer to a list is that of its first cell. -/
theorem head?_of_linked {next : ℕ → Option ℕ} {p : Option ℕ} {l : List ℕ} (h : Linked next p l) : p = l.head? := by
  cases h <;> rfl

/-- An entry is taken out by its place. -/
theorem filter_ne_addr {xs ys : List (Entry κ δ)} (hnd : ((xs ++ e :: ys).map Entry.addr).Nodup) :
    (xs ++ e :: ys).filter (·.addr ≠ e.addr) = xs ++ ys := by
  rw [map_append, map_cons, nodup_append] at hnd
  have hkeep : ∀ zs : List (Entry κ δ), e.addr ∉ zs.map Entry.addr → zs.filter (·.addr ≠ e.addr) = zs := by
    intro zs hzs
    rw [filter_eq_self]
    intro z hz
    rw [decide_eq_true_iff]
    exact fun heq => hzs (mem_map.mpr ⟨z, hz, heq⟩)
  rw [filter_append, filter_cons, if_neg (by simp), hkeep _ fun hx => hnd.2.2 _ hx _ mem_cons_self rfl,
    hkeep _ (nodup_cons.mp hnd.2.1).1]

/-- The rest of a list is visited entry by entry, whatever the callback takes out. -/
theorem enumerateChain_spec {entries : List (Entry κ δ)} {callback : δ → σ → Table κ δ → σ × Table κ δ}
    (hcall : Removes D n entries callback) (hi : i < n) {rest : List (Entry κ δ)} : ∀ {live before : List (Entry κ δ)}
    {t : Table κ δ} {ctx : σ} {fuel : ℕ}, Rep D n t live → live.Sublist entries → chain D n live i = before ++ rest →
    rest.length < fuel → ∃ ctx' t' live', enumerateChain callback fuel (rest.head?.map Entry.addr) ctx t =
        .ok (rest.map Entry.data, ctx', t') ∧
      Rep D n t' live' ∧ live'.Sublist entries ∧ ∀ j, j ≠ i → chain D n live' j = chain D n live j := by
  induction rest with
  | nil =>
    intro live before t ctx fuel h hsub _ hfuel
    obtain ⟨fuel, rfl⟩ := exists_eq_succ_of_ne_zero (ne_of_gt hfuel)
    exact ⟨ctx, t, live, rfl, h, hsub, fun _ _ => rfl⟩
  | cons e rest ih =>
    intro live before t ctx fuel h hsub hchain hfuel
    obtain ⟨fuel, rfl⟩ := exists_eq_succ_of_ne_zero (ne_of_gt (zero_lt_of_lt hfuel))
    have hmem : e ∈ chain D n live i := hchain ▸ mem_append_right _ (.head _)
    obtain ⟨hlive, hslot⟩ := mem_chain.mp hmem
    -- the next pointer was read before the callback
    have hnext : t.next e.addr = rest.head?.map Entry.addr := by
      have hlink := h.chains i hi
      rw [hchain, map_append, map_cons] at hlink
      rw [head?_of_linked hlink.next_of_append, head?_map]
    have hstep : ∃ live' before', Rep D n (callback e.data ctx t).2 live' ∧ live'.Sublist entries ∧
        chain D n live' i = before' ++ rest ∧ ∀ j, j ≠ i → chain D n live' j = chain D n live j := by
      rcases hcall t live ctx hsub h e hlive with hrep | hrep
      · exact ⟨live, before ++ [e], hrep, hsub, by rw [hchain, append_assoc]; rfl, fun _ _ => rfl⟩
      · refine ⟨_, before, hrep, filter_sublist.trans hsub, ?_, fun j hj => ?_⟩
        · have hnd := h.nodup_chain i
          have hcomm : chain D n (live.filter (·.addr ≠ e.addr)) i = (chain D n live i).filter (·.addr ≠ e.addr) := by
            rw [chain, chain, filter_filter, filter_filter]
            exact filter_congr fun _ _ => Bool.and_comm _ _
          rw [hchain] at hnd
          rw [hcomm, hchain, filter_ne_addr hnd]
        · rw [chain, chain, filter_filter]
          refine filter_congr fun x hx => ?_
          rw [Bool.eq_iff_iff, Bool.and_eq_true, decide_eq_true_iff, decide_eq_true_iff]
          refine ⟨And.left, fun hxj => ⟨hxj, fun heq => hj ?_⟩⟩
          rw [← hxj, h.addr_inj hx hlive heq, hslot]
    obtain ⟨live', before', hrep, hsub', hchain', hothers⟩ := hstep
    obtain ⟨ctx', t', live'', hrun, hrep', hsub'', hothers'⟩ := @ih _ _ _ (callback e.data ctx t).1 _ hrep hsub' hchain'
      (lt_of_succ_lt_succ hfuel)
    refine ⟨ctx', t', live'', ?_, hrep', hsub'', fun j hj => (hothers' j hj).trans (hothers j hj)⟩
    change enumerateChain callback (fuel + 1) (some e.addr) ctx t = _
    rw [enumerateChain, hnext, h.data e hlive, hrun]
    rfl

/-- The lists from one on are visited as they were before. -/
theorem enumerateFrom_spec {entries : List (Entry κ δ)} {callback : δ → σ → Table κ δ → σ × Table κ δ}
    (hcall : Removes D n entries callback) (hfuel : entries.length < fuel) {m : ℕ} : ∀ {i : ℕ} {live : List (Entry κ δ)}
    {t : Table κ δ} {ctx : σ}, i + m ≤ n → Rep D n t live → live.Sublist entries →
    (∀ j, i ≤ j → chain D n live j = chain D n entries j) → ∃ ctx' t', enumerateFrom fuel callback m i ctx t =
      .ok ((List.range' i m).flatMap fun j => (chain D n entries j).map Entry.data, ctx', t') := by
  induction m with
  | zero => exact fun _ _ _ _ => ⟨_, _, rfl⟩
  | succ m ih =>
    intro i live t ctx hm h hsub hsame
    have hhead : t.bucket i = (chain D n live i).head?.map Entry.addr := by
      rw [head?_of_linked (h.chains i (by omega)), head?_map]
    obtain ⟨ctx₁, t₁, live₁, hrun, hrep, hsub₁, hothers⟩ :=
      @enumerateChain_spec _ _ _ D n i _ _ hcall (by omega) (chain D n live i) _ [] _ ctx fuel h hsub rfl ((length_chain_le.trans hsub.length_le).trans_lt hfuel)
    obtain ⟨ctx', t', hrun'⟩ := @ih _ _ _ ctx₁ (by omega : i + 1 + m ≤ n) hrep hsub₁
      fun j hj => (hothers j (by omega)).trans (hsame j (by omega))
    refine ⟨ctx', t', ?_⟩
    rw [enumerateFrom, hhead, hrun]
    change (enumerateFrom fuel callback m (i + 1) ctx₁ t₁).map _ = _
    rw [hrun', hsame i le_rfl]
    rfl

theorem Rep.enumerate (hD : Lawful D) (hn : 0 < n) (h : Rep D n t live) (hfuel : live.length < fuel)
    {callback : δ → σ → Table κ δ → σ × Table κ δ} (hcall : Removes D n live callback) (ctx : σ) :
    ∃ visited ctx' t', enumerate fuel t callback ctx = .ok (visited, ctx', t') ∧ visited.Perm (live.map Entry.data) := by
  obtain ⟨ctx', t', hrun⟩ := @enumerateFrom_spec _ _ _ D fuel n _ _ hcall hfuel n 0 live t ctx (by omega) h (.refl _)
    fun _ _ => rfl
  refine ⟨_, ctx', t', by rw [HashTable.enumerate, h.numbuckets]; exact hrun, ?_⟩
  have hperm := (@flatMap_filter_perm _ live (fun e => D.slot e.key n) n).map Entry.data
  rw [map_flatMap, filter_eq_self.mpr fun e _ => decide_eq_true (hD.slot_lt e.key hn)] at hperm
  rw [← range_eq_range']
  exact hperm

/-! ## Tables are maps -/

/-- `Hash_GetNext` visits the entries that follow. -/
theorem Rep.getRest [DecidableEq δ] (hD : Lawful D) (hn : 0 < n) (h : Rep D n t live) (hfuel : live.length < fuel)
    (hdata : ∀ e' ∈ chain D n live (D.slot k n), ∀ e'' ∈ chain D n live (D.slot k n), e'.data = e''.data → e' = e'')
    {after : List (Entry κ δ)} : ∀ {before : List (Entry κ δ)} {e : Entry κ δ} {m : ℕ},
      live.filter (fun e => D.same k e.key) = before ++ e :: after → after.length < m →
      getRest D fuel t k m e.data = .ok (after.map Entry.data) := by
  induction after with
  | nil =>
    intro before e m hsplit hm
    obtain ⟨m, rfl⟩ := exists_eq_succ_of_ne_zero (ne_of_gt hm)
    rw [HashTable.getRest, h.getNext hD hn hfuel hsplit hdata]
    rfl
  | cons e' after ih =>
    intro before e m hsplit hm
    obtain ⟨m, rfl⟩ := exists_eq_succ_of_ne_zero (ne_of_gt (zero_lt_of_lt hm))
    rw [HashTable.getRest, h.getNext hD hn hfuel hsplit hdata]
    change (HashTable.getRest D fuel t k m e'.data).map _ = _
    rw [@ih (before ++ [e]) e' m (by rw [hsplit, append_assoc]; rfl) (lt_of_succ_lt_succ hm)]
    rfl

theorem Rep.isMap [DecidableEq δ] (hD : Lawful D) (hn : 0 < n) (h : Rep D n t live) (hfuel : live.length < fuel) :
    IsMap D fuel n t live := by
  refine ⟨h.get hD hn hfuel, fun k before e after hsplit hdata => ?_, fun σ callback ctx hcall =>
    h.enumerate hD hn hfuel hcall ctx⟩
  refine h.getRest hD hn hfuel hdata hsplit ?_
  have hle : (live.filter fun e => D.same k e.key).length ≤ live.length := length_filter_le _ _
  rw [hsplit, length_append, length_cons] at hle
  omega

/-- After any run whose calls meet their conditions a table is a map with the entries that it should have. -/
def RunsAreMaps (δ : Type) [DecidableEq δ] (D : Discipline κ) : Prop :=
  ∀ n > 0, ∀ junkKey junkData junkNext (ops : List (Op κ δ)), Meets D n [] ops → ∀ fuel > ops.length,
    ∃ t, run D fuel (initTable n junkKey junkData junkNext) ops = .ok t ∧ IsMap D fuel n t (entriesAfter D [] ops)

theorem runsAreMaps_of_lawful {δ : Type} [DecidableEq δ] (hD : Lawful D) : RunsAreMaps δ D := by
  intro n hn junkKey junkData junkNext ops hops fuel hfuel
  have hrep := Rep.init (D := D) n junkKey junkData junkNext
  obtain ⟨t, hrun, hrep', hlen⟩ := hrep.run hD hn hops (by rw [length_nil, zero_add]; exact hfuel)
  rw [length_nil, zero_add] at hlen
  exact ⟨t, hrun, hrep'.isMap hD hn (hlen.trans_lt hfuel)⟩

/-- Tables of each of the three kinds of keys are maps, as long as each call meets its condition. -/
theorem run_isMap (δ : Type) [DecidableEq δ] :
    RunsAreMaps δ names ∧ RunsAreMaps δ namesInsensitive ∧ RunsAreMaps δ keys :=
  ⟨runsAreMaps_of_lawful names_lawful, runsAreMaps_of_lawful namesInsensitive_lawful, runsAreMaps_of_lawful keys_lawful⟩

/-- A run of calls on one list, one of which takes an entry out. -/
theorem run_isMap_names : ∃ t, run names 4 (initTable 1 (fun _ => []) (fun _ => 0) fun _ => none)
    [.add [0x61] 1 10, .add [0x62] 2 11, .remove [0x61]] = .ok t ∧ t.get names 4 [0x62] = .ok (some 2) := by
  obtain ⟨t, hrun, hmap⟩ := (run_isMap ℕ).1 1 one_pos (fun _ => []) (fun _ => 0) (fun _ => none)
    [.add [0x61] 1 10, .add [0x62] 2 11, .remove [0x61]]
    ⟨by simp [Op.Meets], by simp [Op.Meets, Op.effect], by simp [Op.Meets, Op.effect, chain, names, Nat.mod_one], trivial⟩ 4
    (by simp)
  exact ⟨t, hrun, hmap.get _⟩

/-- The name is in no list: its removal should change nothing, and reads through a null pointer. -/
theorem remove_absent_null : ¬ ∀ ops : List (Op (List QByte) ℕ), (∀ op ∈ ops, ∃ k, op = .remove k) → ∃ fuel t,
    run names fuel (initTable 1 (fun _ => []) (fun _ => 0) fun _ => none) ops = .ok t := by
  intro h
  obtain ⟨fuel, t, hrun⟩ := h [.remove [0x61]] (by simp)
  cases hrun

end HashTable

end FteQuake
