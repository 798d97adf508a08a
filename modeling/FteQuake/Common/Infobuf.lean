import FteQuake.Common.Sizebuf
import FteQuake.Lib.WeightedTable
import Mathlib.Data.BitVec
import Mathlib.Data.List.TakeWhile

/-!
# Info buffers

The `infobuf_t` of `common.h` and the operations of `common.c` that change one: keys and values of
userinfos and serverinfos, with a running total of their sizes (`totalsize`) that limits how much a
client may store. A key keeps the block its value is stored in, the number of bytes of the value,
the capacity recorded for the block (`buffersize`), and two flags: whether only a first part of the
value has arrived, and whether the key needs the extended transmission.

Allocations succeed. `Z_Malloc` returns cleared memory; `BZ_Malloc` and `realloc` return arbitrary
bytes, which are parameters (`junk`). A `memcpy` that leaves the block of a value is `none`. The
change callback and its context only tell other components about a change and are left out.

`Infobuf.Invariant` is what the operations are to keep. The table part of it (distinct names, right
total) is `WeightedTable.Balanced` at the size each key counts for. Every operation keeps it but
two: `InfoBuf_Clear` without `all` resets the total although the `*` keys stay, and a partial
`InfoBuf_SyncReceive` onto a cloned key trusts a `buffersize` that `InfoBuf_Clone` never sets.

Main result: `Infobuf.Run.spec`.
-/

namespace FteQuake

open WeightedTable List Option BitVec

/-! ## Strings -/

/-- A C string: the bytes before its terminator. -/
def CString := { s : List QByte // (0 : QByte) ∉ s }
  deriving DecidableEq

namespace CString

/-- The C string that starts a run of bytes. -/
def ofBytes (s : List QByte) : CString :=
  ⟨s.takeWhile (· ≠ 0), fun h => by simpa using List.mem_takeWhile_imp h⟩

/-- `strlen`. -/
def strlen (s : CString) : ℕ := s.1.length

theorem ofBytes_eq {s : List QByte} (h : (0 : QByte) ∉ s) : ofBytes s = ⟨s, h⟩ := by
  apply Subtype.ext
  apply takeWhile_eq_self_iff.2
  intro c hc
  exact decide_eq_true fun e => h (e ▸ hc)

end CString

/-- The character that starts every key and value of an info string. -/
def backslash : QByte := 0x5c

/-- The first character of the keys that users cannot set. -/
def star : QByte := 0x2a

/-- `InfoBuf_NeedsEncoding`: 255, the backslash, the quote, the line ends, NUL, `$` and `;`. -/
def infoBufNeedsEncoding (str : List QByte) : Bool :=
  str.any fun c => c ∈ ([255, backslash, 0x22, 0x0a, 0x0d, 0, 0x24, 0x3b] : List QByte)

/-! ## Keys -/

/-- `struct infokey_s`. -/
structure InfoKey where
  isPartial : Bool
  large : Bool
  name : CString
  size : ℕ
  buffersize : ℕ
  /-- The block `value` points at. -/
  value : List QByte

/-- `infobuf_t`. -/
structure Infobuf where
  keys : List InfoKey
  totalsize : BitVec 64

/-- `InfoBuf_IsLarge`. -/
def infoBufIsLarge (key : InfoKey) : Bool :=
  if key.isPartial then true
  else if key.size ≥ 64 then true
  else
    let namesize := key.name.strlen
    if namesize ≥ 64 then true
    else if infoBufNeedsEncoding key.name.1 then true
    else if infoBufNeedsEncoding (key.value.take key.size) then true
    else false

namespace InfoKey

/-- What a key adds to the total. -/
def footprint (key : InfoKey) : ℕ := key.name.strlen + 2 + key.size

/-- The footprint as a `size_t`. -/
def weight (key : InfoKey) : BitVec 64 := BitVec.ofNat 64 key.footprint

/-- The value has a byte, a terminator behind it, and the right `large` flag. -/
structure WellFormed (key : InfoKey) : Prop where
  size_pos : 1 ≤ key.size
  terminated : key.value[key.size]? = some 0
  large_eq : key.large = infoBufIsLarge key

theorem WellFormed.size_lt {key : InfoKey} (h : key.WellFormed) : key.size < key.value.length :=
  (List.getElem?_eq_some_iff.1 h.terminated).1

/-- The entry that `ZF_ReallocElements` clears and `InfoBuf_SyncReceive` names. -/
def fresh (name : CString) : InfoKey :=
  { isPartial := false, large := false, name := name, size := 0, buffersize := 0, value := [] }

/-- The end of `InfoBuf_SetStarBlobKey`: store a whole value in a new block. -/
def storeBlob (key : InfoKey) (val : List QByte) : InfoKey :=
  let key := { key with buffersize := val.length + 1, size := val.length, value := val ++ [0],
                        isPartial := false }
  { key with large := infoBufIsLarge key }

end InfoKey

/-- `ZF_ReallocElements` of a block of bytes that counts as `elements` long: what is kept is the
block's own bytes, and everything from `elements` on is cleared. -/
def zfReallocElements (block : List QByte) (elements newelements : ℕ) (junk : ℕ → QByte) :
    List QByte :=
  (List.range newelements).map fun i =>
    if elements ≤ i then 0 else block[i]?.getD (junk i)

@[simp] theorem length_zfReallocElements (block : List QByte) (elements newelements : ℕ) (junk : ℕ → QByte) :
    (zfReallocElements block elements newelements junk).length = newelements := by
  simp [zfReallocElements]

namespace InfoKey

/-- The block of a key after `InfoBuf_SyncReceive` made room for `newsize` bytes and a NUL. -/
def grow (key : InfoKey) (newsize : ℕ) (final : Bool) (junk : ℕ → QByte) : InfoKey :=
  if final then
    { key with value := zfReallocElements key.value key.buffersize (newsize + 1) junk,
               buffersize := newsize + 1 }
  else if key.buffersize < newsize + 1 then
    { key with value := zfReallocElements key.value key.buffersize (newsize * 2 + 1) junk,
               buffersize := newsize * 2 + 1 }
  else key

/-- The end of `InfoBuf_SyncReceive`: store `val` at `offset`; `none` when it leaves the block. -/
def storePart (key : InfoKey) (val : List QByte) (offset : ℕ) (final : Bool)
    (junk : ℕ → QByte) : Option InfoKey :=
  let newsize := offset + val.length
  let key := key.grow newsize final junk
  if key.value.length < newsize + 1 then none
  else
    let key := { key with
      value := key.value.take offset ++ (val ++ 0 :: key.value.drop (newsize + 1)),
      size := newsize, isPartial := !final }
    some { key with large := infoBufIsLarge key }

end InfoKey

/-! ## Operations -/

/-- `InfoBuf_FindKey`. -/
def infoBufFindKey (info : Infobuf) (key : CString) : Option (Fin info.keys.length) :=
  info.keys.findFinIdx? fun k => k.name = key

/-- `InfoBuf_RemoveKey`. -/
def infoBufRemoveKey (info : Infobuf) (key : CString) : Bool × Infobuf :=
  match infoBufFindKey info key with
  | some k =>
    (true,
      { keys := info.keys.eraseIdx k,
        totalsize := info.totalsize - BitVec.ofNat 64 (info.keys[k].name.strlen + 2)
          - BitVec.ofNat 64 info.keys[k].size })
  | none => (false, info)

/-- `InfoBuf_SyncReceive`. -/
def infoBufSyncReceive (info : Infobuf) (key : CString) (val : List QByte) (offset : ℕ)
    (final : Bool) (junk : ℕ → QByte) : Option (Bool × Infobuf) :=
  match infoBufFindKey info key with
  | none =>
    if val.length = 0 then some (false, info)
    else if offset ≠ 0 then some (false, info)
    else do
      let totalsize := info.totalsize + BitVec.ofNat 64 (key.strlen + 2)
      let new ← (InfoKey.fresh key).storePart val offset final junk
      pure (true,
        { keys := info.keys ++ [new], totalsize := totalsize + BitVec.ofNat 64 new.size })
  | some k =>
    if val.length = 0 then some (infoBufRemoveKey info key)
    else if offset ≠ 0 ∧ offset ≠ info.keys[k].size then some (infoBufRemoveKey info key)
    else do
      let totalsize := info.totalsize - BitVec.ofNat 64 info.keys[k].size
      let new ← info.keys[k].storePart val offset final junk
      pure (true,
        { keys := info.keys.set k new, totalsize := totalsize + BitVec.ofNat 64 new.size })

/-- `InfoBuf_SetStarBlobKey`; `val` is `none` for a null pointer. -/
def infoBufSetStarBlobKey (info : Infobuf) (key : CString) (val : Option (List QByte)) :
    Bool × Infobuf :=
  let val := val.getD []
  match infoBufFindKey info key with
  | none =>
    if val.length = 0 then (false, info)
    else
      let totalsize := info.totalsize + BitVec.ofNat 64 (key.strlen + 2)
      let new := (InfoKey.fresh key).storeBlob val
      (true, { keys := info.keys ++ [new], totalsize := totalsize + BitVec.ofNat 64 new.size })
  | some k =>
    if val.length = 0 then infoBufRemoveKey info key
    else if info.keys[k].size = val.length ∧ info.keys[k].value.take val.length = val then
      (false, info)
    else
      let totalsize := info.totalsize - BitVec.ofNat 64 info.keys[k].size
      let new := info.keys[k].storeBlob val
      (true, { keys := info.keys.set k new, totalsize := totalsize + BitVec.ofNat 64 new.size })

/-- `InfoBuf_SetKey`: users cannot set the `*` keys. -/
def infoBufSetKey (info : Infobuf) (key val : CString) : Bool × Infobuf :=
  if key.1.head? = some star then (false, info)
  else infoBufSetStarBlobKey info key (some val.1)

/-- Does `InfoBuf_Clear` remove this key? -/
def InfoKey.isCleared (all : Bool) (key : InfoKey) : Bool := all || key.name.1.head? ≠ some star

/-- The loop of `InfoBuf_Clear`, from index `k - 1` down. -/
def infoBufClearLoop (all : Bool) : ℕ → List InfoKey → List InfoKey
  | 0, keys => keys
  | k + 1, keys =>
    infoBufClearLoop all k
      (if keys[k]?.any (InfoKey.isCleared all) then keys.eraseIdx k else keys)

/-- `InfoBuf_Clear`. -/
def infoBufClear (info : Infobuf) (all : Bool) : Infobuf :=
  { keys := infoBufClearLoop all info.keys.length info.keys, totalsize := 0 }

/-- `InfoBuf_Clone` of one key. Its `buffersize` stays what `BZ_Malloc` returned. -/
def InfoKey.clone (src : InfoKey) (junk : ℕ) : InfoKey :=
  { isPartial := src.isPartial, large := src.large, name := src.name, size := src.size,
    buffersize := junk, value := src.value.take src.size ++ [0] }

/-- `InfoBuf_Clone`; `none` when a value is shorter than its `size` says. -/
def infoBufClone (dest src : Infobuf) (junk : ℕ → ℕ) : Option Infobuf :=
  let dest := infoBufClear dest true
  if src.keys.all fun k => k.size ≤ k.value.length then
    let keys := src.keys.mapIdx fun i k => k.clone (junk i)
    some { keys := keys, totalsize := keys.foldl (fun t k =>
      t + BitVec.ofNat 64 (k.name.strlen + 2 + k.size)) dest.totalsize }
  else none

/-! ## Reading an info string -/

/-- `Base64_Decode`. -/
def base64Decode (inp : QByte) : BitVec 32 :=
  if 0x41 ≤ inp ∧ inp ≤ 0x5a then (inp - 0x41).setWidth 32
  else if 0x61 ≤ inp ∧ inp ≤ 0x7a then (inp - 0x61).setWidth 32 + 26
  else if 0x30 ≤ inp ∧ inp ≤ 0x39 then (inp - 0x30).setWidth 32 + 52
  else if inp = 0x2b ∨ inp = 0x2d then 62
  else if inp = 0x2f ∨ inp = 0x5f then 63
  else 0

/-- The padding character. -/
def padding : QByte := 0x3d

/-- The loop of `InfoBuf_DecodeString` over base64 characters. -/
def infoBufDecodeLoop : List QByte → List QByte
  | a :: b :: s =>
    let v := base64Decode a <<< 18 ||| base64Decode b <<< 12
    ((v >>> 16) &&& 0xff).setWidth 8 ::
      match s with
      | [] => []
      | c :: s =>
        if c = padding then []
        else
          let v := v ||| base64Decode c <<< 6
          ((v >>> 8) &&& 0xff).setWidth 8 ::
            match s with
            | [] => []
            | d :: s =>
              if d = padding then []
              else
                let v := v ||| base64Decode d
                (v &&& 0xff).setWidth 8 :: infoBufDecodeLoop s
  | _ => []

/-- `InfoBuf_DecodeString`: a marked string is base64, any other stands for itself. -/
def infoBufDecodeString (s : List QByte) : List QByte :=
  if s.head? = some 0xff then infoBufDecodeLoop s.tail else s

/-- The part of a string up to the next backslash, and the rest from it on. -/
def untilBackslash (s : List QByte) : List QByte × List QByte := s.span (· ≠ backslash)

theorem length_untilBackslash_le (s : List QByte) : (untilBackslash s).2.length ≤ s.length := by
  rw [untilBackslash, span_eq_takeWhile_dropWhile]
  exact length_dropWhile_le _ s

/-- The loop of `InfoBuf_FromString`. -/
def infoBufFromStringLoop (info : Infobuf) : List QByte → Infobuf
  | [] => info
  | c :: s =>
    if c = backslash then
      match _h : (untilBackslash s).2 with
      | [] => info
      | _ :: v =>
        let key := infoBufDecodeString (untilBackslash s).1
        let val := infoBufDecodeString (untilBackslash v).1
        infoBufFromStringLoop (infoBufSetStarBlobKey info (.ofBytes key) (some val)).2
          (untilBackslash v).2
    else info
  termination_by s => s.length
  decreasing_by
    have h₁ := length_untilBackslash_le s
    have h₂ := length_untilBackslash_le v
    rw [_h] at h₁
    simp only [List.length_cons] at h₁ ⊢
    omega

/-- `InfoBuf_FromString`. -/
def infoBufFromString (info : Infobuf) (infostring : CString) (append : Bool) : Infobuf :=
  let info := if !append then infoBufClear info true else info
  infoBufFromStringLoop info infostring.1

/-! ## The invariant -/

/-- Distinct names, well-formed values, and a total that is the sum of what the keys count for, in
the `size_t` it is kept in. -/
structure Infobuf.Invariant (info : Infobuf) : Prop where
  names_nodup : (info.keys.map InfoKey.name).Nodup
  wellFormed : ∀ key ∈ info.keys, key.WellFormed
  totalsize_eq : info.totalsize = BitVec.ofNat 64 (info.keys.map InfoKey.footprint).sum

variable {info : Infobuf}

theorem InfoKey.sum_weight (keys : List InfoKey) :
    (keys.map InfoKey.weight).sum = BitVec.ofNat 64 (keys.map InfoKey.footprint).sum := by
  induction keys with
  | nil => rfl
  | cons key keys ih =>
    rw [map_cons, sum_cons, ih, map_cons, sum_cons, ofNat_add, InfoKey.weight]

theorem Infobuf.Invariant.balanced (h : info.Invariant) :
    Balanced InfoKey.name InfoKey.weight info.keys info.totalsize :=
  ⟨h.names_nodup, by rw [h.totalsize_eq, InfoKey.sum_weight]⟩

theorem Infobuf.Invariant.of_balanced (h : Balanced InfoKey.name InfoKey.weight info.keys info.totalsize)
    (hw : ∀ key ∈ info.keys, key.WellFormed) : info.Invariant :=
  ⟨h.nodup, hw, by rw [h.total, InfoKey.sum_weight]⟩

theorem InfoKey.weight_eq (key : InfoKey) :
    key.weight = BitVec.ofNat 64 (key.name.strlen + 2) + BitVec.ofNat 64 key.size := by
  rw [InfoKey.weight, InfoKey.footprint, ofNat_add]

/-! ## Finding a key -/

theorem infoBufFindKey_eq_none {key : CString}
    (h : infoBufFindKey info key = none) : ∀ k ∈ info.keys, k.name ≠ key := by
  intro k hk
  have h' := findFinIdx?_eq_none_iff.1 h k hk
  simpa using h'

theorem infoBufFindKey_eq_some {key : CString} {k : Fin info.keys.length}
    (h : infoBufFindKey info key = some k) : info.keys[k].name = key := by
  have h' := (findFinIdx?_eq_some_iff.1 h).1
  simpa using h'

/-! ## Storing a value -/

namespace InfoKey

@[simp] theorem name_fresh (name : CString) : (fresh name).name = name := rfl

variable (key : InfoKey)

@[simp] theorem name_storeBlob (val : List QByte) :
    (key.storeBlob val).name = key.name := rfl

@[simp] theorem size_storeBlob (val : List QByte) :
    (key.storeBlob val).size = val.length := rfl

theorem wellFormed_storeBlob {val : List QByte} (h : val.length ≠ 0) :
    (key.storeBlob val).WellFormed where
  size_pos := Nat.pos_of_ne_zero h
  terminated := by
    change (val ++ [0])[val.length]? = some 0
    simp
  large_eq := rfl

@[simp] theorem name_grow (newsize : ℕ) (final : Bool) (junk : ℕ → QByte) :
    (key.grow newsize final junk).name = key.name := by
  unfold grow
  split
  · rfl
  · split <;> rfl

/-- The block is long enough, unless it was recorded as longer than it is. -/
theorem lt_length_grow {key : InfoKey} {newsize : ℕ} {final : Bool} (junk : ℕ → QByte)
    (h : final = false → newsize < key.buffersize → newsize < key.value.length) :
    newsize < (key.grow newsize final junk).value.length := by
  unfold grow
  split
  · simp
  · rename_i hf
    split
    · simp only [length_zfReallocElements]
      omega
    · exact h (by simpa using hf) (by omega)

/-- What a part that stays inside its block leaves in the key. -/
theorem storePart_eq_some {key new : InfoKey} {val : List QByte} {offset : ℕ} {final : Bool} {junk : ℕ → QByte}
    (hval : val.length ≠ 0) (h : key.storePart val offset final junk = some new) :
    new.name = key.name ∧ new.size = offset + val.length ∧ new.WellFormed := by
  unfold storePart at h
  simp only at h
  split at h
  · cases h
  · rename_i hlen
    cases h
    refine ⟨name_grow key _ _ _, rfl, ?_, ?_, rfl⟩
    · change 1 ≤ offset + val.length
      omega
    · have ht : ((key.grow (offset + val.length) final junk).value.take offset).length = offset :=
        length_take_of_le (by omega)
      change (_ ++ (val ++ 0 :: _))[offset + val.length]? = some 0
      rw [getElem?_append_right (by omega), ht, Nat.add_sub_cancel_left]
      simp

theorem storePart_isSome {key : InfoKey} {val : List QByte} {offset : ℕ} {final : Bool} (junk : ℕ → QByte)
    (h : final = false → offset + val.length < key.buffersize → offset + val.length < key.value.length) :
    ∃ new, key.storePart val offset final junk = some new := by
  have hlen := lt_length_grow junk h
  unfold storePart
  simp only
  rw [if_neg (by omega)]
  exact ⟨_, rfl⟩

end InfoKey

/-! ## The operations keep the invariant -/

namespace Infobuf

variable {info : Infobuf}

/-- Appending a key under a new name. -/
theorem Invariant.append (h : info.Invariant) {new : InfoKey} (hw : new.WellFormed)
    (hname : ∀ k ∈ info.keys, k.name ≠ new.name) :
    (Infobuf.mk (info.keys ++ [new]) (info.totalsize + BitVec.ofNat 64 (new.name.strlen + 2)
      + BitVec.ofNat 64 new.size)).Invariant := by
  apply Invariant.of_balanced
  · have hb := h.balanced.append hname
    rwa [new.weight_eq, ← add_assoc] at hb
  · intro k hk
    rcases mem_append.1 hk with hk | hk
    · exact h.wellFormed k hk
    · rw [mem_singleton.1 hk]
      exact hw

/-- Replacing the value of a key. -/
theorem Invariant.set (h : info.Invariant) (k : Fin info.keys.length) {new : InfoKey}
    (hw : new.WellFormed) (hname : new.name = info.keys[k].name) :
    (Infobuf.mk (info.keys.set k new) (info.totalsize - BitVec.ofNat 64 info.keys[k].size
      + BitVec.ofNat 64 new.size)).Invariant := by
  apply Invariant.of_balanced
  · have hb := h.balanced.set k k.2 hname
    have ht : info.totalsize - BitVec.ofNat 64 info.keys[k].size + BitVec.ofNat 64 new.size
        = info.totalsize - info.keys[(k : ℕ)].weight + new.weight := by
      rw [InfoKey.weight_eq, InfoKey.weight_eq, hname, Fin.getElem_fin]
      abel
    rwa [← ht] at hb
  · intro key hkey
    rcases mem_or_eq_of_mem_set hkey with hkey | rfl
    · exact h.wellFormed key hkey
    · exact hw

theorem invariant_removeKey (h : info.Invariant) (key : CString) :
    (infoBufRemoveKey info key).2.Invariant := by
  unfold infoBufRemoveKey
  split
  · rename_i k hk
    apply Invariant.of_balanced
    · have hb := h.balanced.eraseIdx k k.2
      rwa [InfoKey.weight_eq, ← sub_sub] at hb
    · intro key hkey
      exact h.wellFormed key (mem_of_mem_eraseIdx hkey)
  · exact h

theorem invariant_setStarBlobKey (h : info.Invariant) (key : CString)
    (val : Option (List QByte)) : (infoBufSetStarBlobKey info key val).2.Invariant := by
  unfold infoBufSetStarBlobKey
  simp only
  split
  · rename_i hk
    split
    · exact h
    · rename_i hval
      exact h.append (InfoKey.wellFormed_storeBlob _ hval) (infoBufFindKey_eq_none hk)
  · rename_i k hk
    split
    · exact invariant_removeKey h key
    · rename_i hval
      split
      · exact h
      · exact h.set k (InfoKey.wellFormed_storeBlob _ hval) rfl

theorem invariant_setKey (h : info.Invariant) (key val : CString) :
    (infoBufSetKey info key val).2.Invariant := by
  unfold infoBufSetKey
  split
  · exact h
  · exact invariant_setStarBlobKey h key _

/-- A received part fits the block of its key, whatever capacity is recorded for it. -/
def ReceiveFits (info : Infobuf) (key : CString) (val : List QByte) (offset : ℕ) (final : Bool) :
    Prop :=
  ∀ k ∈ info.keys, k.name = key → final = false → offset + val.length < k.buffersize →
    offset + val.length < k.value.length

theorem syncReceive_spec (h : info.Invariant) {key : CString} {val : List QByte} {offset : ℕ}
    {final : Bool} (junk : ℕ → QByte) (hfit : info.ReceiveFits key val offset final) :
    ∃ r, infoBufSyncReceive info key val offset final junk = some r ∧ r.2.Invariant := by
  unfold infoBufSyncReceive
  split
  · rename_i hk
    split
    · exact ⟨_, rfl, h⟩
    · rename_i hval
      split
      · exact ⟨_, rfl, h⟩
      · -- an entry that was just made has no block, so it gets one
        obtain ⟨new, hnew⟩ := @InfoKey.storePart_isSome (InfoKey.fresh key) val offset final
          junk (fun _ hlt => absurd hlt (Nat.not_lt_zero _))
        obtain ⟨hname, hsize, hw⟩ := InfoKey.storePart_eq_some hval hnew
        rw [hnew]
        refine ⟨_, rfl, ?_⟩
        have hname' : new.name = key := hname
        have ha := h.append hw fun k hmem => hname' ▸ infoBufFindKey_eq_none hk k hmem
        rwa [hname'] at ha
  · rename_i k hk
    split
    · exact ⟨_, rfl, invariant_removeKey h key⟩
    · rename_i hval
      split
      · exact ⟨_, rfl, invariant_removeKey h key⟩
      · obtain ⟨new, hnew⟩ := InfoKey.storePart_isSome junk
          (hfit info.keys[k] (getElem_mem k.2) (infoBufFindKey_eq_some hk))
        obtain ⟨hname, hsize, hw⟩ := InfoKey.storePart_eq_some hval hnew
        rw [hnew]
        exact ⟨_, rfl, h.set k hw hname⟩

/-- Going down from index `k`, the loop filters the first `k` keys. -/
theorem clearLoop_eq (all : Bool) (k : ℕ) (keys : List InfoKey) (hk : k ≤ keys.length) :
    infoBufClearLoop all k keys
      = (keys.take k).filter (fun key => !key.isCleared all) ++ keys.drop k := by
  induction k generalizing keys with
  | zero => simp [infoBufClearLoop]
  | succ k ih =>
    have hlt : k < keys.length := hk
    rw [infoBufClearLoop, List.getElem?_eq_getElem hlt, Option.any_some,
      List.take_succ_eq_append_getElem hlt, List.filter_append]
    cases hc : keys[k].isCleared all with
    | true =>
      rw [if_pos rfl, ih _ (by rw [length_eraseIdx_of_lt hlt]; omega),
        take_eraseIdx_eq_take_of_le _ _ _ le_rfl, eraseIdx_eq_take_drop_succ,
        drop_left' (by rw [length_take]; omega)]
      simp [hc]
    | false =>
      rw [if_neg Bool.false_ne_true, ih keys hlt.le, drop_eq_getElem_cons hlt]
      simp [hc]

/-- `InfoBuf_Clear` keeps the keys it does not remove, in their order, and resets the total. -/
theorem clear_eq (info : Infobuf) (all : Bool) :
    infoBufClear info all = ⟨info.keys.filter (fun key => !key.isCleared all), 0⟩ := by
  rw [infoBufClear, clearLoop_eq all _ _ le_rfl, take_length, drop_length, append_nil]

theorem clear_all (info : Infobuf) : infoBufClear info true = ⟨[], 0⟩ := by
  rw [clear_eq]
  simp [InfoKey.isCleared]

theorem invariant_empty : (Infobuf.mk [] 0).Invariant :=
  ⟨nodup_nil, by simp, rfl⟩

/-- Clearing everything, or a buffer without `*` keys. -/
theorem clear_eq_empty {all : Bool} (h : all = false → ∀ key ∈ info.keys, key.name.1.head? ≠ some star) :
    infoBufClear info all = ⟨[], 0⟩ := by
  cases all with
  | true => exact clear_all info
  | false =>
    rw [clear_eq, filter_eq_nil_iff.2]
    intro key hkey
    simpa [InfoKey.isCleared] using h rfl key hkey

theorem wellFormed_clone {key : InfoKey} (h : key.WellFormed) (junk : ℕ) :
    (key.clone junk).WellFormed := by
  have hlen : (key.value.take key.size).length = key.size := length_take_of_le h.size_lt.le
  refine ⟨h.size_pos, ?_, ?_⟩
  · change (key.value.take key.size ++ [0])[key.size]? = some 0
    rw [getElem?_append_right hlen.le, hlen, Nat.sub_self]
    rfl
  · have hv : (key.clone junk).value.take (key.clone junk).size = key.value.take key.size :=
      take_left' hlen
    change key.large = _
    rw [h.large_eq, infoBufIsLarge, infoBufIsLarge, hv]
    rfl

theorem foldl_footprint (keys : List InfoKey) (t : BitVec 64) :
    keys.foldl (fun t k => t + BitVec.ofNat 64 (k.name.strlen + 2 + k.size)) t
      = t + BitVec.ofNat 64 (keys.map InfoKey.footprint).sum := by
  induction keys generalizing t with
  | nil => simp
  | cons key keys ih =>
    rw [foldl_cons, ih, map_cons, sum_cons, add_assoc, ← ofNat_add, InfoKey.footprint]

theorem clone_spec {dest src : Infobuf} (h : src.Invariant) (junk : ℕ → ℕ) :
    ∃ info', infoBufClone dest src junk = some info' ∧ info'.Invariant := by
  have hall : (src.keys.all fun k => k.size ≤ k.value.length) = true := by
    rw [List.all_eq_true]
    intro key hkey
    exact decide_eq_true (h.wellFormed key hkey).size_lt.le
  unfold infoBufClone
  simp only
  rw [if_pos hall, clear_all]
  refine ⟨_, rfl, ?_, ?_, ?_⟩
  · have hn : ((src.keys.mapIdx fun i k => k.clone (junk i)).map InfoKey.name)
        = src.keys.map InfoKey.name := by
      apply ext_getElem
      · simp
      · intro i _ _
        simp [InfoKey.clone]
    rw [hn]
    exact h.names_nodup
  · intro key hkey
    obtain ⟨i, hi, rfl⟩ := mem_mapIdx.1 hkey
    exact wellFormed_clone (h.wellFormed _ (getElem_mem hi)) _
  · rw [foldl_footprint]
    exact zero_add _

theorem invariant_fromStringLoop {info : Infobuf} (h : info.Invariant) (s : List QByte) :
    (infoBufFromStringLoop info s).Invariant := by
  fun_induction infoBufFromStringLoop info s with
  | case1 => exact h
  | case2 => exact h
  | case3 info s c v hv key val ih => exact ih (invariant_setStarBlobKey h _ _)
  | case4 => exact h

theorem invariant_fromString (h : info.Invariant) (infostring : CString) (append : Bool) :
    (infoBufFromString info infostring append).Invariant := by
  unfold infoBufFromString
  apply invariant_fromStringLoop
  split
  · rw [clear_all]
    exact invariant_empty
  · exact h

end Infobuf

/-! ## Runs -/

/-- A call of one of the operations, with its arguments and the bytes allocation leaves behind. -/
inductive InfoOp
  | setStarBlobKey (key : CString) (val : Option (List QByte))
  | setKey (key val : CString)
  | syncReceive (key : CString) (val : List QByte) (offset : ℕ) (final : Bool) (junk : ℕ → QByte)
  | removeKey (key : CString)
  | fromString (infostring : CString) (append : Bool)
  | clone (src : Infobuf) (junk : ℕ → ℕ)
  | clear (all : Bool)

namespace InfoOp

/-- The buffer after a call; `none` when the call leaves the memory of the buffer. -/
def exec (info : Infobuf) : InfoOp → Option Infobuf
  | setStarBlobKey key val => some (infoBufSetStarBlobKey info key val).2
  | setKey key val => some (infoBufSetKey info key val).2
  | syncReceive key val offset final junk =>
    (infoBufSyncReceive info key val offset final junk).map Prod.snd
  | removeKey key => some (infoBufRemoveKey info key).2
  | fromString infostring append => some (infoBufFromString info infostring append)
  | clone src junk => infoBufClone info src junk
  | clear all => some (infoBufClear info all)

/-- The calls that keep the invariant: a received part fits the block of its key, and a buffer
that is cleared down to its `*` keys has none. -/
def Meets (info : Infobuf) : InfoOp → Prop
  | syncReceive key val offset final _ => info.ReceiveFits key val offset final
  | clear all => all = false → ∀ key ∈ info.keys, key.name.1.head? ≠ some star
  | _ => True

end InfoOp

/-- The buffers that calls under the condition `C` lead to from the empty one. The source of
`InfoBuf_Clone` is another such buffer. -/
inductive Infobuf.Run (C : Infobuf → InfoOp → Prop) : Infobuf → Prop
  | empty : Run C ⟨[], 0⟩
  | step {info info' : Infobuf} (op : InfoOp) (h : Run C info)
      (hsrc : ∀ src junk, op = .clone src junk → Run C src) (hop : C info op)
      (hexec : op.exec info = some info') : Run C info'

/-- One call: it stays inside the memory of the buffer and keeps the invariant. -/
theorem InfoOp.exec_spec {info : Infobuf} (h : info.Invariant) (op : InfoOp)
    (hsrc : ∀ src junk, op = .clone src junk → src.Invariant) (hop : op.Meets info) :
    ∃ info', op.exec info = some info' ∧ info'.Invariant := by
  cases op with
  | setStarBlobKey key val => exact ⟨_, rfl, Infobuf.invariant_setStarBlobKey h key val⟩
  | setKey key val => exact ⟨_, rfl, Infobuf.invariant_setKey h key val⟩
  | syncReceive key val offset final junk =>
    obtain ⟨r, hr, hinv⟩ := Infobuf.syncReceive_spec h junk hop
    exact ⟨r.2, by rw [exec, hr, map_some], hinv⟩
  | removeKey key => exact ⟨_, rfl, Infobuf.invariant_removeKey h key⟩
  | fromString infostring append => exact ⟨_, rfl, Infobuf.invariant_fromString h infostring append⟩
  | clone src junk => exact Infobuf.clone_spec (hsrc src junk rfl) junk
  | clear all =>
    refine ⟨_, rfl, ?_⟩
    rw [Infobuf.clear_eq_empty hop]
    exact Infobuf.invariant_empty

theorem Infobuf.Run.invariant {info : Infobuf} (h : Run (fun info op => op.Meets info) info) :
    info.Invariant := by
  induction h with
  | empty => exact invariant_empty
  | step op _ _ hop hexec ih ihsrc =>
    obtain ⟨info', he, hinv⟩ := op.exec_spec ih ihsrc hop
    rw [hexec] at he
    cases he
    exact hinv

/-- **Every run whose calls meet the condition keeps the invariant**, and the next such call stays
inside the memory of the buffer. -/
theorem Infobuf.Run.spec {info : Infobuf} (h : Run (fun info op => op.Meets info) info) :
    info.Invariant ∧ ∀ op : InfoOp, op.Meets info →
      (∀ src junk, op = .clone src junk → Run (fun info op => op.Meets info) src) →
      ∃ info', op.exec info = some info' := by
  refine ⟨h.invariant, ?_⟩
  intro op hop hsrc
  obtain ⟨info', he, -⟩ :=
    op.exec_spec h.invariant (fun src junk e => (hsrc src junk e).invariant) hop
  exact ⟨info', he⟩

/-- A buffer with the one key `*a`, whose value is `b`. -/
def starBuffer : Infobuf :=
  (infoBufSetStarBlobKey ⟨[], 0⟩ ⟨[star, 0x61], by decide⟩ (some [0x62])).2

theorem starBuffer_run (C : Infobuf → InfoOp → Prop) (hC : ∀ info key val,
    C info (.setStarBlobKey key val)) : Infobuf.Run C starBuffer :=
  .step (.setStarBlobKey ⟨[star, 0x61], by decide⟩ (some [0x62])) .empty
    (fun _ _ e => by cases e) (hC _ _ _) rfl

theorem starBuffer_spec : starBuffer.Invariant ∧ ∀ op : InfoOp, op.Meets starBuffer →
    (∀ src junk, op = .clone src junk → Infobuf.Run (fun info op => op.Meets info) src) →
    ∃ info', op.exec starBuffer = some info' :=
  Infobuf.Run.spec (starBuffer_run _ fun _ _ _ => trivial)

/-- Clearing down to the `*` keys leaves a total of 0 beside the key `*a`; and a partial update of
a cloned key, whose block is 2 bytes long but whose `buffersize` happens to be 100, writes 65 bytes
into it. -/
theorem unrestricted_runs_break :
    (∃ info, Infobuf.Run (fun _ _ => True) info ∧ ¬ info.Invariant) ∧
      ∃ info op, Infobuf.Run (fun _ _ => True) info ∧ InfoOp.exec info op = none := by
  have hstar := starBuffer_run (fun _ _ => True) fun _ _ _ => trivial
  constructor
  · refine ⟨infoBufClear starBuffer false,
      .step (.clear false) hstar (fun _ _ e => by cases e) trivial rfl, ?_⟩
    intro h
    have ht : (0 : BitVec 64) = BitVec.ofNat 64 5 := h.totalsize_eq
    exact absurd ht (by decide)
  · obtain ⟨info, hinfo⟩ : ∃ info, infoBufClone ⟨[], 0⟩ starBuffer (fun _ => 100) = some info :=
      ⟨_, rfl⟩
    refine ⟨info, .syncReceive ⟨[star, 0x61], by decide⟩ (List.replicate 64 0) 0 false fun _ => 0,
      .step (.clone starBuffer fun _ => 100) .empty ?_ trivial hinfo, ?_⟩
    · intro src junk e
      cases e
      exact hstar
    · cases hinfo
      rfl

end FteQuake
