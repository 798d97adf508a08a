import FteQuake.Common.Infobuf
import FteQuake.Lib.BitFlags
import Mathlib.Tactic.IntervalCases

/-!
# Info strings

`InfoBuf_ToString` of `common.c` prints the keys of an info buffer into a string of limited size,
`\key\value` after `\key\value`, in two passes by priority. Keys that need the extended
transmission, and keys that no longer fit, are given to a sync object instead, which sends them
later. `InfoBuf_FromString` reads such a string into a buffer again.

Bytes that would end a token or upset other programs switch `InfoBuf_EncodeString_Internal` to a
marked base64 form. Every writer stores its bytes one by one while there is room before `end`, so
that what is stored is the part of the text that fits; a key that did not fit is overwritten by
what follows or cut off by the final NUL.

Main results: `infoBufEncodeString_roundTrip`, `infoBufToString_roundTrip`.
-/

namespace FteQuake

open List Mem

/-! ## Encoding -/

/-- `Base64_Encode`. -/
def base64Encode (byt : BitVec 32) : QByte :=
  if byt < 26 then 0x41 + byt.setWidth 8
  else if byt < 52 then 0x61 + byt.setWidth 8 - 26
  else if byt < 62 then 0x30 + byt.setWidth 8 - 52
  else if byt = 62 then 0x2b
  else if byt = 63 then 0x2f
  else 0x21

/-- The base64 loop of `InfoBuf_EncodeString_Internal`, with `base64_cur` and `base64_bits`. -/
def infoBufEncodeLoop : List QByte → (cur : BitVec 32) → (bits : ℕ) → List QByte
  | c :: s, cur, bits =>
    let cur := cur ||| c.setWidth 32 <<< (16 - bits)
    let bits := bits + 8
    if bits = 24 then
      base64Encode ((cur >>> 18) &&& 63) :: base64Encode ((cur >>> 12) &&& 63) ::
        base64Encode ((cur >>> 6) &&& 63) :: base64Encode (cur &&& 63) :: infoBufEncodeLoop s 0 0
    else infoBufEncodeLoop s cur bits
  | [], cur, bits =>
    if bits ≠ 0 then
      base64Encode ((cur >>> 18) &&& 63) :: base64Encode ((cur >>> 12) &&& 63) ::
        if bits = 8 then [padding, padding]
        else base64Encode ((cur >>> 6) &&& 63) ::
          if bits = 16 then [padding] else [base64Encode (cur &&& 63)]
    else []

/-- The bytes `InfoBuf_EncodeString_Internal` produces, in order. -/
def infoBufEncoded (n : List QByte) : List QByte :=
  if infoBufNeedsEncoding n then 0xff :: infoBufEncodeLoop n 0 0 else n

/-- `InfoBuf_EncodeString_Internal`: its result, and the memory after it stored what fits. -/
def infoBufEncodeStringInternal (m : Mem QByte) (n : List QByte) (out e : ℕ) : ℕ × Mem QByte :=
  ((infoBufEncoded n).length, m.blit out ((infoBufEncoded n).take (e - out)))

/-- `InfoBuf_EncodeString`. -/
def infoBufEncodeString (m : Mem QByte) (n : List QByte) (out outsize : ℕ) : Bool × Mem QByte :=
  let (l, m) := infoBufEncodeStringInternal m n out (out + outsize)
  if l < outsize then (true, m.store (out + l) 0) else (false, m.store out 0)

/-- `InfoBuf_EncodeStringSlash`. -/
def infoBufEncodeStringSlash (m : Mem QByte) (n : List QByte) (out e : ℕ) : ℕ × Mem QByte :=
  let (l, m) := infoBufEncodeStringInternal m n (out + 1) e
  (1 + l, if out < e then m.store out backslash else m)

/-! ## Base64 -/

variable (v : BitVec 32)

theorem and_sixBits : v &&& 63 = (v.setWidth 6).setWidth 32 := by
  apply BitVec.eq_of_toNat_eq
  rw [BitVec.toNat_and, BitVec.toNat_setWidth, BitVec.toNat_setWidth]
  have h : v.toNat &&& 63 = v.toNat % 64 := Nat.and_two_pow_sub_one_eq_mod v.toNat 6
  have hlt : v.toNat % 2 ^ 6 < 2 ^ 6 := Nat.mod_lt _ (by norm_num)
  change v.toNat &&& 63 = v.toNat % 2 ^ 6 % 2 ^ 32
  rw [Nat.mod_eq_of_lt (hlt.trans (by norm_num))]
  exact h

@[simp] theorem base64Decode_encode :
    base64Decode (base64Encode (v &&& 63)) = v &&& 63 := by
  have h : ∀ u : BitVec 6, base64Decode (base64Encode (u.setWidth 32)) = u.setWidth 32 := by
    decide
  rw [and_sixBits, h]

@[simp] theorem base64Encode_ne_padding : base64Encode (v &&& 63) ≠ padding := by
  have h : ∀ u : BitVec 6, base64Encode (u.setWidth 32) ≠ padding := by decide
  rw [and_sixBits]
  exact h _

theorem base64Encode_ne_zero : base64Encode (v &&& 63) ≠ 0 := by
  have h : ∀ u : BitVec 6, base64Encode (u.setWidth 32) ≠ 0 := by decide
  rw [and_sixBits]
  exact h _

/-- Three bytes in the 24 bits that four characters stand for. -/
def base64Group (a b c : QByte) : BitVec 32 :=
  a.setWidth 32 <<< 16 ||| b.setWidth 32 <<< 8 ||| c.setWidth 32

variable (a b c : QByte)

theorem base64Group_fst :
    ((((base64Group a b c >>> 18) &&& 63) <<< 18 ||| ((base64Group a b c >>> 12) &&& 63) <<< 12)
      >>> 16 &&& 0xff).setWidth 8 = a := by
  ext i hi
  interval_cases i <;> simp [base64Group]

theorem base64Group_snd :
    ((((base64Group a b c >>> 18) &&& 63) <<< 18 ||| ((base64Group a b c >>> 12) &&& 63) <<< 12
      ||| ((base64Group a b c >>> 6) &&& 63) <<< 6) >>> 8 &&& 0xff).setWidth 8 = b := by
  ext i hi
  interval_cases i <;> simp [base64Group]

theorem base64Group_trd :
    ((((base64Group a b c >>> 18) &&& 63) <<< 18 ||| ((base64Group a b c >>> 12) &&& 63) <<< 12
      ||| ((base64Group a b c >>> 6) &&& 63) <<< 6 ||| (base64Group a b c &&& 63)) &&& 0xff
      ).setWidth 8 = c := by
  ext i hi
  interval_cases i <;> simp [base64Group]

theorem infoBufEncodeLoop_three (s : List QByte) :
    infoBufEncodeLoop (a :: b :: c :: s) 0 0
      = base64Encode ((base64Group a b c >>> 18) &&& 63)
        :: base64Encode ((base64Group a b c >>> 12) &&& 63)
        :: base64Encode ((base64Group a b c >>> 6) &&& 63)
        :: base64Encode (base64Group a b c &&& 63) :: infoBufEncodeLoop s 0 0 := by
  simp [infoBufEncodeLoop, base64Group]

theorem infoBufEncodeLoop_two (a b : QByte) :
    infoBufEncodeLoop [a, b] 0 0
      = [base64Encode ((base64Group a b 0 >>> 18) &&& 63),
        base64Encode ((base64Group a b 0 >>> 12) &&& 63),
        base64Encode ((base64Group a b 0 >>> 6) &&& 63), padding] := by
  simp [infoBufEncodeLoop, base64Group]

theorem infoBufEncodeLoop_one (a : QByte) :
    infoBufEncodeLoop [a] 0 0
      = [base64Encode ((base64Group a 0 0 >>> 18) &&& 63),
        base64Encode ((base64Group a 0 0 >>> 12) &&& 63), padding, padding] := by
  simp [infoBufEncodeLoop, base64Group]

/-- Reading base64 characters gives the bytes they were made of; three bytes at a time. -/
theorem infoBufDecodeLoop_encodeLoop (s : List QByte) :
    infoBufDecodeLoop (infoBufEncodeLoop s 0 0) = s := by
  match s with
  | [] => rfl
  | [a] =>
    rw [infoBufEncodeLoop_one, infoBufDecodeLoop]
    simp only [base64Decode_encode, base64Group_fst, ite_true]
  | [a, b] =>
    rw [infoBufEncodeLoop_two, infoBufDecodeLoop]
    simp only [base64Decode_encode, base64Group_fst, base64Group_snd, base64Encode_ne_padding, ite_true, ite_false]
  | a :: b :: c :: s =>
    rw [infoBufEncodeLoop_three, infoBufDecodeLoop]
    simp only [base64Decode_encode, base64Group_fst, base64Group_snd, base64Group_trd,
      base64Encode_ne_padding, ite_false, infoBufDecodeLoop_encodeLoop s]

theorem zero_notMem_infoBufEncodeLoop (s : List QByte) (cur : BitVec 32) (bits : ℕ) :
    0 ∉ infoBufEncodeLoop s cur bits := by
  have hp : 0 ≠ padding := by decide
  have he := fun v => (base64Encode_ne_zero v).symm
  fun_induction infoBufEncodeLoop s cur bits with
  | case1 c s cur₀ bits₀ cur bits hbits ih =>
    simp only [mem_cons, not_or]
    exact ⟨he _, he _, he _, he _, ih⟩
  | case2 c s cur₀ bits₀ cur bits hbits ih => exact ih
  | case3 cur bits hbits =>
    split
    · simp only [mem_cons, not_mem_nil, or_false, not_or]
      exact ⟨he _, he _, hp, hp⟩
    · split
      · simp only [mem_cons, not_mem_nil, or_false, not_or]
        exact ⟨he _, he _, he _, hp⟩
      · simp only [mem_cons, not_mem_nil, or_false, not_or]
        exact ⟨he _, he _, he _, he _⟩
  | case4 => exact not_mem_nil

/-! ## Decoding inverts encoding -/

theorem infoBufNeedsEncoding_eq_false {s : List QByte} (h : infoBufNeedsEncoding s = false) :
    ∀ c ∈ s, c ≠ 255 ∧ c ≠ backslash ∧ c ≠ 0 := by
  intro c hc
  have h' := any_eq_false.1 h c hc
  simp only [mem_cons, not_mem_nil, not_or, decide_eq_true_eq] at h'
  exact ⟨h'.1, h'.2.1, h'.2.2.2.2.2.1⟩

/-- **Decoding inverts encoding.** -/
theorem infoBufDecodeString_encoded (n : List QByte) :
    infoBufDecodeString (infoBufEncoded n) = n := by
  unfold infoBufEncoded infoBufDecodeString
  cases h : infoBufNeedsEncoding n with
  | true => exact infoBufDecodeLoop_encodeLoop n
  | false =>
    cases n with
    | nil => rfl
    | cons c s =>
      have hc := (infoBufNeedsEncoding_eq_false h c (.head _)).1
      simpa using fun e => absurd e hc

theorem zero_notMem_infoBufEncoded (n : List QByte) : 0 ∉ infoBufEncoded n := by
  unfold infoBufEncoded
  cases h : infoBufNeedsEncoding n with
  | true => simpa using zero_notMem_infoBufEncodeLoop n 0 0
  | false => exact fun hc => (infoBufNeedsEncoding_eq_false h 0 hc).2.2 rfl

/-- The C string at an address. -/
def HoldsString (m : Mem QByte) (p : ℕ) (s : CString) : Prop :=
  m.slice p s.strlen = s.1 ∧ m (p + s.strlen) = 0

/-- **What `InfoBuf_EncodeString` leaves in a buffer that is long enough decodes to its input.** -/
theorem infoBufEncodeString_roundTrip (m : Mem QByte) (n : List QByte) (out : ℕ) {outsize : ℕ}
    (h : (infoBufEncoded n).length < outsize) :
    (infoBufEncodeString m n out outsize).1 = true ∧
      ∃ s, HoldsString (infoBufEncodeString m n out outsize).2 out s ∧
        infoBufDecodeString s.1 = n := by
  have htake : (infoBufEncoded n).take (out + outsize - out) = infoBufEncoded n :=
    take_of_length_le (by omega)
  unfold infoBufEncodeString infoBufEncodeStringInternal
  simp only [htake, if_pos h]
  refine ⟨trivial, ⟨infoBufEncoded n, zero_notMem_infoBufEncoded n⟩, ⟨?_, ?_⟩, infoBufDecodeString_encoded n⟩
  · rw [store_eq_blit]
    exact (slice_blit_before _ _ le_rfl).trans (slice_blit_self _ _ _)
  · exact store_self _ _ _

/-! ## Sync objects -/

/-- An entry of an `infosync_t`; a context is the address of an info buffer. -/
structure InfoSyncKey where
  context : ℕ
  name : CString
  syncpos : ℕ

/-- `infosync_t`. -/
abbrev InfoSync := List InfoSyncKey

/-- `InfoSync_Strip`: remove the entries of a context. -/
def infoSyncStrip (sync : InfoSync) (context : ℕ) : InfoSync :=
  sync.filter fun k => k.context ≠ context

/-- `InfoSync_Add`. -/
def infoSyncAdd (sync : InfoSync) (context : ℕ) (name : CString) : InfoSync :=
  match sync.findFinIdx? fun k => k.context = context && k.name = name with
  | some k => sync.set k { sync[k] with syncpos := 0 }
  | none => sync ++ [⟨context, name, 0⟩]

/-- The sync object is to send the key `name` of a context. -/
def InfoSync.Reports (sync : InfoSync) (context : ℕ) (name : CString) : Prop :=
  (context, name) ∈ sync.map fun k => (k.context, k.name)

theorem not_reports_strip (sync : InfoSync) (context : ℕ) (name : CString) :
    ¬ InfoSync.Reports (infoSyncStrip sync context) context name := by
  intro h
  obtain ⟨k, hk, he⟩ := mem_map.1 h
  have hne := of_mem_filter hk
  cases he
  simp at hne

theorem reports_add {sync : InfoSync} {context : ℕ} {name name' : CString} :
    InfoSync.Reports (infoSyncAdd sync context name) context name' ↔
      name' = name ∨ sync.Reports context name' := by
  unfold infoSyncAdd
  split
  · rename_i k hk
    have hk' := (findFinIdx?_eq_some_iff.1 hk).1
    simp only [Bool.and_eq_true, decide_eq_true_eq, Fin.getElem_fin] at hk'
    -- only the sync position of an entry with this context and name changes
    have hmap : (sync.set k { sync[k] with syncpos := 0 }).map (fun k => (k.context, k.name))
        = sync.map fun k => (k.context, k.name) := by
      rw [map_set]
      apply ext_getElem
      · simp
      · intro i h₁ h₂
        rw [getElem_set]
        split
        · rename_i he
          subst he
          simp
        · rfl
    unfold InfoSync.Reports
    rw [hmap]
    constructor
    · exact Or.inr
    · rintro (rfl | h)
      · rw [mem_map]
        exact ⟨sync[(k : ℕ)], getElem_mem k.2, by rw [hk'.1, hk'.2]⟩
      · exact h
  · unfold InfoSync.Reports
    simp [or_comm]

/-! ## Printing -/

/-- The first character of comment keys. -/
def underscore : QByte := 0x5f

/-- Is a name on a list of names? `*` and `_` stand for all names that start with them. -/
def infoBufListed (list : List CString) (name : CString) : Bool :=
  list.any fun l => l = name || (l.1 = [star] && name.1.head? = some star)
    || (l.1 = [underscore] && name.1.head? = some underscore)

/-- The keys that the lists `exclusive` and `ignore` of `InfoBuf_ToString` let through. -/
def infoBufSelects (ignore exclusive : Option (List CString)) (name : CString) : Bool :=
  exclusive.all (fun l => infoBufListed l name) && ignore.all fun l => !infoBufListed l name

/-- The pass of `InfoBuf_ToString` that prints a key. -/
def infoBufPriority (priority : Option (List CString)) (name : CString) : ℕ :=
  match priority with
  | some l => if infoBufListed l name then 0 else 1
  | none => if name.1.head? = some star then 0 else 1

/-- The state of `InfoBuf_ToString`: the memory from `infostring` on, the cursor `o`, the result
`r` and the sync object. -/
structure InfoPrinter where
  m : Mem QByte
  o : ℕ
  r : ℕ
  sync : Option InfoSync

/-- The value of a key. -/
def InfoKey.contents (key : InfoKey) : List QByte := key.value.take key.size

/-- The end of the loop body of `InfoBuf_ToString`: print a key, or leave it to the sync object. -/
def infoBufToStringKey (e context : ℕ) (st : InfoPrinter) (key : InfoKey) : InfoPrinter :=
  let add := st.sync.map fun sync => infoSyncAdd sync context key.name
  if !key.large then
    let (l₁, m) := infoBufEncodeStringSlash st.m key.name.1 st.o e
    let (l₂, m) := infoBufEncodeStringSlash m key.contents (st.o + l₁) e
    let l := l₁ + l₂
    if st.o + l < e then { m := m, o := st.o + l, r := st.r + l, sync := st.sync }
    else { m := m, o := st.o, r := st.r + l, sync := add }
  else { st with sync := add }

/-- One pass of `InfoBuf_ToString` over the keys. -/
def infoBufToStringPass (e context : ℕ) (priority ignore exclusive : Option (List CString))
    (keys : List InfoKey) (st : InfoPrinter) (pri : ℕ) : InfoPrinter :=
  keys.foldl (fun st key =>
    if infoBufSelects ignore exclusive key.name && pri = infoBufPriority priority key.name then
      infoBufToStringKey e context st key
    else st) st

/-- `InfoBuf_ToString`, with the memory from `infostring` on. The end of the string is where a
cursor must stay below, one byte before the end of the buffer. A null `infostring` is written to
all the same (`*o = 0`), which is `none`. -/
def infoBufToString (info : Infobuf) (infostring : Option (Mem QByte)) (maxsize : ℕ)
    (priority ignore exclusive : Option (List CString)) (sync : Option InfoSync) (context : ℕ) :
    Option (ℕ × Mem QByte × Option InfoSync) :=
  match infostring with
  | none => none
  | some m =>
    let st : InfoPrinter :=
      { m := m, o := 0, r := 1, sync := sync.map fun sync => infoSyncStrip sync context }
    let st := [0, 1].foldl
      (infoBufToStringPass (maxsize - 1) context priority ignore exclusive info.keys) st
    some (st.r, st.m.store st.o 0, st.sync)

/-! ## One key -/

section Slash

variable (m : Mem QByte) (n : List QByte) {out e : ℕ}

theorem slash_fst : (infoBufEncodeStringSlash m n out e).1 = 1 + (infoBufEncoded n).length := rfl

theorem slash_before {a : ℕ} (h : a < out) : (infoBufEncodeStringSlash m n out e).2 a = m a := by
  unfold infoBufEncodeStringSlash infoBufEncodeStringInternal
  simp only
  split
  · rw [Mem.store, if_neg (by omega)]
    exact blit_apply_lt _ _ (by omega)
  · exact blit_apply_lt _ _ (by omega)

/-- Nothing is stored at or after `end`. -/
theorem slash_after {a : ℕ} (h : e ≤ a) : (infoBufEncodeStringSlash m n out e).2 a = m a := by
  have hb : (m.blit (out + 1) ((infoBufEncoded n).take (e - (out + 1)))) a = m a := by
    by_cases ho : out + 1 ≤ e
    · apply blit_apply_ge
      have := length_take_le (e - (out + 1)) (infoBufEncoded n)
      omega
    · rw [show e - (out + 1) = 0 by omega, take_zero, blit_nil]
  unfold infoBufEncodeStringSlash infoBufEncodeStringInternal
  simp only
  split
  · rw [Mem.store, if_neg (by omega)]
    exact hb
  · exact hb

/-- A text that ends before `end` is stored whole. -/
theorem slice_slash (h : out + (1 + (infoBufEncoded n).length) < e) :
    (infoBufEncodeStringSlash m n out e).2.slice out (1 + (infoBufEncoded n).length)
      = backslash :: infoBufEncoded n := by
  have htake : (infoBufEncoded n).take (e - (out + 1)) = infoBufEncoded n :=
    take_of_length_le (by omega)
  unfold infoBufEncodeStringSlash infoBufEncodeStringInternal
  simp only [htake]
  rw [if_pos (by omega), slice_add, slice_one, store_self, singleton_append,
    store_eq_blit, slice_blit_after _ [backslash] (q := out + 1) le_rfl,
    slice_blit_self]

end Slash

/-- What `InfoBuf_ToString` prints for a key. -/
def InfoKey.text (key : InfoKey) : List QByte :=
  backslash :: key.name.1 ++ backslash :: key.contents

theorem infoBufEncoded_eq_self {n : List QByte} (h : infoBufNeedsEncoding n = false) :
    infoBufEncoded n = n := by
  rw [infoBufEncoded, h, if_neg Bool.false_ne_true]

/-- A key that is not large is printed as it is. -/
theorem InfoKey.WellFormed.needsEncoding {key : InfoKey} (h : key.WellFormed) (hl : key.large = false) :
    infoBufNeedsEncoding key.name.1 = false ∧ infoBufNeedsEncoding key.contents = false := by
  rw [h.large_eq] at hl
  unfold infoBufIsLarge at hl
  simp only at hl
  split at hl
  · cases hl
  · split at hl
    · cases hl
    · split at hl
      · cases hl
      · split at hl
        · cases hl
        · rename_i hname
          split at hl
          · cases hl
          · rename_i hvalue
            exact ⟨by simpa using hname, by simpa [InfoKey.contents] using hvalue⟩

/-- The progress of `InfoBuf_ToString`: of the keys `done`, those in `printed` are in the string
and the others are with the sync object. -/
structure InfoPrinter.Printed (m₀ : Mem QByte) (e context : ℕ) (done printed : List InfoKey)
    (st : InfoPrinter) : Prop where
  sublist : printed.Sublist done
  small : ∀ key ∈ printed, key.large = false
  cursor : st.o = (printed.flatMap InfoKey.text).length
  written : st.m.slice 0 st.o = printed.flatMap InfoKey.text
  inside : st.o = 0 ∨ st.o < e
  untouched : ∀ a, e ≤ a → st.m a = m₀ a
  synced : ∃ sync, st.sync = some sync ∧
    ∀ name, sync.Reports context name ↔ ∃ key ∈ done, key ∉ printed ∧ key.name = name

namespace InfoPrinter

variable {m₀ : Mem QByte} {e context : ℕ} {done printed : List InfoKey} {st : InfoPrinter}

theorem Printed.start (sync : InfoSync) (r : ℕ) :
    Printed m₀ e context [] []
      { m := m₀, o := 0, r := r, sync := some (infoSyncStrip sync context) } where
  sublist := List.Sublist.refl _
  small := by simp
  cursor := rfl
  written := rfl
  inside := Or.inl rfl
  untouched _ _ := rfl
  synced := by
    refine ⟨_, rfl, ?_⟩
    intro name
    constructor
    · intro h
      exact absurd h (not_reports_strip sync context name)
    · rintro ⟨key, hkey, -⟩
      exact absurd hkey not_mem_nil

/-- A key left to the sync object. -/
theorem Printed.report (h : Printed m₀ e context done printed st) {key : InfoKey} {m : Mem QByte}
    {r : ℕ} (hname : ∀ k ∈ done, k.name ≠ key.name) (hbefore : ∀ a, a < st.o → m a = st.m a)
    (hafter : ∀ a, e ≤ a → m a = st.m a) :
    Printed m₀ e context (done ++ [key]) printed
      { m := m, o := st.o, r := r,
        sync := st.sync.map fun sync => infoSyncAdd sync context key.name } where
  sublist := h.sublist.trans (sublist_append_left _ _)
  small := h.small
  cursor := h.cursor
  written := by
    change m.slice 0 st.o = _
    rw [← h.written]
    exact slice_congr fun a _ ha => hbefore a (by omega)
  inside := h.inside
  untouched a ha := (hafter a ha).trans (h.untouched a ha)
  synced := by
    obtain ⟨sync, hs, hiff⟩ := h.synced
    refine ⟨_, by rw [hs]; rfl, ?_⟩
    intro name
    rw [reports_add, hiff]
    constructor
    · rintro (rfl | ⟨k, hk, hp, hn⟩)
      · exact ⟨key, by simp, fun hp => hname key (h.sublist.subset hp) rfl, rfl⟩
      · exact ⟨k, mem_append_left _ hk, hp, hn⟩
    · rintro ⟨k, hk, hp, hn⟩
      rcases mem_append.1 hk with hk | hk
      · exact Or.inr ⟨k, hk, hp, hn⟩
      · rw [mem_singleton.1 hk] at hn
        exact Or.inl hn.symm

/-- A key that was printed. -/
theorem Printed.print (h : Printed m₀ e context done printed st) {key : InfoKey} {m : Mem QByte}
    {r : ℕ} (hname : ∀ k ∈ done, k.name ≠ key.name) (hl : key.large = false)
    (hbefore : ∀ a, a < st.o → m a = st.m a) (hafter : ∀ a, e ≤ a → m a = st.m a)
    (hfit : st.o + key.text.length < e) (htext : m.slice st.o key.text.length = key.text) :
    Printed m₀ e context (done ++ [key]) (printed ++ [key])
      { m := m, o := st.o + key.text.length, r := r, sync := st.sync } where
  sublist := h.sublist.append (List.Sublist.refl _)
  small k hk := by
    rcases mem_append.1 hk with hk | hk
    · exact h.small k hk
    · rw [mem_singleton.1 hk]
      exact hl
  cursor := by
    simp only [flatMap_append, length_append, h.cursor, flatMap_singleton]
  written := by
    have hold : m.slice 0 st.o = printed.flatMap InfoKey.text :=
      (slice_congr fun a _ ha => hbefore a (by omega)).trans h.written
    change m.slice 0 (st.o + key.text.length) = _
    rw [slice_add, hold, Nat.zero_add, htext, flatMap_append, flatMap_singleton]
  inside := Or.inr hfit
  untouched a ha := (hafter a ha).trans (h.untouched a ha)
  synced := by
    obtain ⟨sync, hs, hiff⟩ := h.synced
    refine ⟨sync, hs, ?_⟩
    intro name
    rw [hiff]
    constructor
    · rintro ⟨k, hk, hp, hn⟩
      refine ⟨k, mem_append_left _ hk, ?_, hn⟩
      intro hmem
      rcases mem_append.1 hmem with hmem | hmem
      · exact hp hmem
      · exact hname k hk (by rw [mem_singleton.1 hmem])
    · rintro ⟨k, hk, hp, hn⟩
      rw [mem_append, not_or] at hp
      rcases mem_append.1 hk with hk | hk
      · exact ⟨k, hk, hp.1, hn⟩
      · exact absurd hk hp.2

/-- **One key is printed whole or left to the sync object.** -/
theorem Printed.step (h : Printed m₀ e context done printed st) {key : InfoKey}
    (hw : key.WellFormed) (hname : ∀ k ∈ done, k.name ≠ key.name) :
    ∃ printed', Printed m₀ e context (done ++ [key]) printed'
      (infoBufToStringKey e context st key) := by
  unfold infoBufToStringKey
  cases hl : key.large with
  | true => exact ⟨printed, h.report hname (fun _ _ => rfl) fun _ _ => rfl⟩
  | false =>
    obtain ⟨hn, hv⟩ := hw.needsEncoding hl
    have hlen : key.text.length = (1 + key.name.1.length) + (1 + key.contents.length) := by
      simp only [InfoKey.text, length_append, length_cons]
      omega
    simp only [Bool.not_false, ite_true, slash_fst, infoBufEncoded_eq_self hn, infoBufEncoded_eq_self hv, ← hlen]
    generalize hm₁ : (infoBufEncodeStringSlash st.m key.name.1 st.o e).2 = m₁
    generalize hm₂ : (infoBufEncodeStringSlash m₁ key.contents (st.o + (1 + key.name.1.length)) e).2 = m₂
    have hbefore : ∀ a, a < st.o → m₂ a = st.m a := by
      intro a ha
      rw [← hm₂, slash_before _ _ (by omega), ← hm₁, slash_before _ _ ha]
    have hafter : ∀ a, e ≤ a → m₂ a = st.m a := by
      intro a ha
      rw [← hm₂, slash_after _ _ ha, ← hm₁, slash_after _ _ ha]
    split
    · rename_i hfit
      refine ⟨printed ++ [key], h.print hname hl hbefore hafter hfit ?_⟩
      have h₁ : m₂.slice st.o (1 + key.name.1.length) = backslash :: key.name.1 := by
        have hs := @slice_slash st.m key.name.1 st.o e (by rw [infoBufEncoded_eq_self hn]; omega)
        rw [infoBufEncoded_eq_self hn, hm₁] at hs
        rw [← hs, ← hm₂]
        exact slice_congr fun a _ ha => slash_before _ _ ha
      have h₂ : m₂.slice (st.o + (1 + key.name.1.length)) (1 + key.contents.length) = backslash :: key.contents := by
        have hs := @slice_slash m₁ key.contents (st.o + (1 + key.name.1.length)) e
          (by rw [infoBufEncoded_eq_self hv]; omega)
        rwa [infoBufEncoded_eq_self hv, hm₂] at hs
      rw [hlen, slice_add, h₁, h₂]
      rfl
    · exact ⟨printed, h.report hname hbefore hafter⟩

/-- All keys of a list with distinct names. -/
theorem Printed.run (h : Printed m₀ e context done printed st) (keys : List InfoKey)
    (hw : ∀ key ∈ keys, key.WellFormed) (hnames : ((done ++ keys).map InfoKey.name).Nodup) :
    ∃ printed', Printed m₀ e context (done ++ keys) printed'
      (keys.foldl (infoBufToStringKey e context) st) := by
  induction keys generalizing done printed st with
  | nil => exact ⟨printed, by simpa using h⟩
  | cons key keys ih =>
    have hname : ∀ k ∈ done, k.name ≠ key.name := by
      rw [map_append, nodup_append] at hnames
      intro k hk
      exact hnames.2.2 _ (mem_map_of_mem hk) _ (by simp)
    obtain ⟨printed₁, h₁⟩ := h.step (hw key (.head _)) hname
    obtain ⟨printed₂, h₂⟩ := ih h₁ (fun k hk => hw k (.tail _ hk))
      (by simpa using hnames)
    exact ⟨printed₂, by simpa using h₂⟩

end InfoPrinter

/-! ## Reading a printed string -/

/-- The names and values of a buffer, in order. -/
def Infobuf.pairs (info : Infobuf) : List (CString × List QByte) :=
  info.keys.map fun key => (key.name, key.contents)

theorem untilBackslash_append {a b : List QByte} (ha : ∀ c ∈ a, c ≠ backslash)
    (hb : b = [] ∨ b.head? = some backslash) : untilBackslash (a ++ b) = (a, b) := by
  rw [untilBackslash, span_eq_takeWhile_dropWhile]
  have hstop : b.takeWhile (fun c => decide (c ≠ backslash)) = [] ∧
      b.dropWhile (fun c => decide (c ≠ backslash)) = b := by
    cases b with
    | nil => exact ⟨rfl, rfl⟩
    | cons c b =>
      have hc : c = backslash := by simpa using hb
      subst hc
      simp
  have ha' : ∀ c ∈ a, decide (c ≠ backslash) = true := fun c hc => decide_eq_true (ha c hc)
  rw [takeWhile_append_of_pos ha', dropWhile_append_of_pos ha', hstop.1, hstop.2, append_nil]

theorem infoBufDecodeString_eq_self {n : List QByte} (h : infoBufNeedsEncoding n = false) :
    infoBufDecodeString n = n := by
  have hd := infoBufDecodeString_encoded n
  rwa [infoBufEncoded_eq_self h] at hd

/-- Reading one printed key sets it. -/
theorem infoBufFromStringLoop_text (info : Infobuf) {key : InfoKey} (hw : key.WellFormed) (hl : key.large = false)
    {rest : List QByte} (hrest : rest = [] ∨ rest.head? = some backslash) :
    infoBufFromStringLoop info (key.text ++ rest)
      = infoBufFromStringLoop (infoBufSetStarBlobKey info key.name (some key.contents)).2 rest := by
  obtain ⟨hn, hv⟩ := hw.needsEncoding hl
  have hname : untilBackslash (key.name.1 ++ backslash :: (key.contents ++ rest))
      = (key.name.1, backslash :: (key.contents ++ rest)) :=
    untilBackslash_append (fun c hc => (infoBufNeedsEncoding_eq_false hn c hc).2.1) (Or.inr rfl)
  have hvalue : untilBackslash (key.contents ++ rest) = (key.contents, rest) :=
    untilBackslash_append (fun c hc => (infoBufNeedsEncoding_eq_false hv c hc).2.1) hrest
  have htext : key.text ++ rest = backslash :: (key.name.1 ++ backslash :: (key.contents ++ rest)) := by
    simp [InfoKey.text]
  rw [htext, infoBufFromStringLoop, if_pos rfl]
  split
  · rename_i h
    rw [hname] at h
    cases h
  · rename_i c v h
    rw [hname] at h
    cases h
    simp only [hname, hvalue, infoBufDecodeString_eq_self hn, infoBufDecodeString_eq_self hv]
    rw [CString.ofBytes_eq key.name.2]
    rfl

/-- A new key with a value goes to the end of the buffer. -/
theorem pairs_setStarBlobKey {info : Infobuf} {key : CString} {val : List QByte}
    (hval : val.length ≠ 0) (hkey : ∀ k ∈ info.keys, k.name ≠ key) :
    (infoBufSetStarBlobKey info key (some val)).2.pairs = info.pairs ++ [(key, val)] := by
  have hnone : infoBufFindKey info key = none := by
    apply findFinIdx?_eq_none_iff.2
    intro k hk
    simpa using hkey k hk
  unfold infoBufSetStarBlobKey
  rw [hnone]
  simp only [Option.getD_some, if_neg hval, Infobuf.pairs, map_append, map_singleton,
    InfoKey.name_storeBlob, InfoKey.name_fresh]
  congr 3
  exact take_left

theorem head_flatMap_text (keys : List InfoKey) :
    keys.flatMap InfoKey.text = [] ∨ (keys.flatMap InfoKey.text).head? = some backslash := by
  cases keys with
  | nil => exact Or.inl rfl
  | cons key keys => exact Or.inr rfl

/-- **Reading a string of printed keys appends them to a buffer that has none of them.** -/
theorem pairs_fromStringLoop (info : Infobuf) (keys : List InfoKey) (hw : ∀ key ∈ keys, key.WellFormed)
    (hl : ∀ key ∈ keys, key.large = false) (hnames : (info.pairs.map Prod.fst ++ keys.map InfoKey.name).Nodup) :
    (infoBufFromStringLoop info (keys.flatMap InfoKey.text)).pairs
      = info.pairs ++ keys.map fun key => (key.name, key.contents) := by
  induction keys generalizing info with
  | nil =>
    rw [flatMap_nil, infoBufFromStringLoop, map_nil, append_nil]
  | cons key keys ih =>
    have hkey := hw key (.head _)
    have hval : key.contents.length ≠ 0 := by
      have hlen : key.contents.length = key.size := length_take_of_le hkey.size_lt.le
      have := hkey.size_pos
      omega
    have hnew : ∀ k ∈ info.keys, k.name ≠ key.name := by
      intro k hk
      have hd := (nodup_append.1 hnames).2.2
      exact hd _ (by simpa [Infobuf.pairs] using ⟨k, hk, rfl⟩) _ (by simp)
    have hpairs := pairs_setStarBlobKey hval hnew
    rw [flatMap_cons, infoBufFromStringLoop_text info hkey (hl key mem_cons_self)
      (head_flatMap_text keys), ih _ (fun k hk => hw k (.tail _ hk))
      (fun k hk => hl k (.tail _ hk)), hpairs]
    · simp
    · rw [hpairs]
      simpa using hnames

/-! ## The round trip -/

section RoundTrip

variable (info : Infobuf) (priority ignore exclusive : Option (List CString))

/-- The keys `InfoBuf_ToString` goes through, in the order of its two passes. -/
def infoBufPrintOrder : List InfoKey :=
  (info.keys.filter fun key => infoBufSelects ignore exclusive key.name).filter
      (fun key => infoBufPriority priority key.name = 0) ++
    (info.keys.filter fun key => infoBufSelects ignore exclusive key.name).filter
      fun key => !decide (infoBufPriority priority key.name = 0)

theorem infoBufPrintOrder_perm :
    (infoBufPrintOrder info priority ignore exclusive).Perm
      (info.keys.filter fun key => infoBufSelects ignore exclusive key.name) :=
  filter_append_perm _ _

theorem infoBufPriority_eq_one {name : CString} :
    infoBufPriority priority name = 1 ↔ infoBufPriority priority name ≠ 0 := by
  unfold infoBufPriority
  split <;> split <;> simp

/-- A pass is a run through the keys of its priority. -/
theorem infoBufToStringPass_eq (e context : ℕ) (st : InfoPrinter) {pri : ℕ} {q : InfoKey → Bool}
    (hq : ∀ key, q key = true ↔ pri = infoBufPriority priority key.name) :
    infoBufToStringPass e context priority ignore exclusive info.keys st pri
      = ((info.keys.filter fun key => infoBufSelects ignore exclusive key.name).filter q).foldl
          (infoBufToStringKey e context) st := by
  rw [infoBufToStringPass, foldl_filter, foldl_filter]
  congr 1
  funext st key
  cases infoBufSelects ignore exclusive key.name <;> simp [hq]

/-- The two passes are one run through the print order. -/
theorem foldl_pass (e context : ℕ) (st : InfoPrinter) :
    [0, 1].foldl (infoBufToStringPass e context priority ignore exclusive info.keys) st
      = (infoBufPrintOrder info priority ignore exclusive).foldl
          (infoBufToStringKey e context) st := by
  have h₀ : ∀ key : InfoKey, decide (infoBufPriority priority key.name = 0) = true ↔
      0 = infoBufPriority priority key.name := by
    intro key
    rw [decide_eq_true_iff, eq_comm]
  have h₁ : ∀ key : InfoKey, (!decide (infoBufPriority priority key.name = 0)) = true ↔
      1 = infoBufPriority priority key.name := by
    intro key
    rw [@eq_comm ℕ 1, infoBufPriority_eq_one, Bool.not_eq_true', decide_eq_false_iff_not]
  rw [foldl_cons, foldl_cons, foldl_nil, infoBufToStringPass_eq _ _ _ _ _ _ _ h₀,
    infoBufToStringPass_eq _ _ _ _ _ _ _ h₁, infoBufPrintOrder, foldl_append]

end RoundTrip

/-- A selected list of keys, printed in the order of the passes: which keys are in the string, and
that the others are with the sync object. -/
theorem infoBufToString_spec (info : Infobuf) (m : Mem QByte) (maxsize : ℕ)
    (priority ignore exclusive : Option (List CString)) (sync : InfoSync) (context : ℕ)
    (hnodup : (info.keys.map InfoKey.name).Nodup) (hw : ∀ key ∈ info.keys, key.WellFormed) :
    ∃ st printed sync',
      infoBufToString info (some m) maxsize priority ignore exclusive (some sync) context
        = some (st.r, st.m.store st.o 0, some sync') ∧
      InfoPrinter.Printed m (maxsize - 1) context
        (infoBufPrintOrder info priority ignore exclusive) printed st ∧
      (printed.map InfoKey.name).Nodup ∧
      ∀ key, key ∈ printed ↔ key ∈ info.keys ∧
        infoBufSelects ignore exclusive key.name = true ∧ ¬ sync'.Reports context key.name := by
  have hperm := infoBufPrintOrder_perm info priority ignore exclusive
  have hmem : ∀ key, key ∈ infoBufPrintOrder info priority ignore exclusive ↔
      key ∈ info.keys ∧ infoBufSelects ignore exclusive key.name = true :=
    fun key => hperm.mem_iff.trans mem_filter
  have hLnodup : ((infoBufPrintOrder info priority ignore exclusive).map InfoKey.name).Nodup :=
    (hperm.map InfoKey.name).nodup_iff.2 (hnodup.sublist (filter_sublist.map InfoKey.name))
  obtain ⟨printed, hp⟩ := (@InfoPrinter.Printed.start m (maxsize - 1) context sync 1).run
    (infoBufPrintOrder info priority ignore exclusive)
    (fun key hk => hw key ((hmem key).1 hk).1) (by simpa using hLnodup)
  rw [nil_append] at hp
  obtain ⟨sync', hsync, hrep⟩ := hp.synced
  refine ⟨_, printed, sync', ?_, hp, hLnodup.sublist (hp.sublist.map InfoKey.name), ?_⟩
  · rw [← hsync, ← foldl_pass]
    rfl
  · intro key
    rw [hrep]
    constructor
    · intro hk
      have hL := hp.sublist.subset hk
      refine ⟨((hmem key).1 hL).1, ((hmem key).1 hL).2, ?_⟩
      rintro ⟨k, hk', hnot, hn⟩
      exact hnot (inj_on_of_nodup_map hLnodup hk' hL hn ▸ hk)
    · rintro ⟨hk, hsel, hno⟩
      by_contra hnot
      exact hno ⟨key, (hmem key).2 ⟨hk, hsel⟩, hnot, rfl⟩

theorem zero_notMem_text {key : InfoKey} (hw : key.WellFormed) (hl : key.large = false) :
    (0 : QByte) ∉ key.text := by
  obtain ⟨hn, hv⟩ := hw.needsEncoding hl
  have hb : (0 : QByte) ≠ backslash := by decide
  intro h
  rcases mem_append.1 h with h | h
  · rcases mem_cons.1 h with h | h
    · exact hb h
    · exact (infoBufNeedsEncoding_eq_false hn 0 h).2.2 rfl
  · rcases mem_cons.1 h with h | h
    · exact hb h
    · exact (infoBufNeedsEncoding_eq_false hv 0 h).2.2 rfl

/-- **The round trip of info strings.** For a buffer with distinct names and well-formed values and
any string buffer with room for the NUL: `InfoBuf_ToString` stores a C string within the buffer
and nothing after the buffer; reading the string gives exactly the pairs of the selected keys that
are not with the sync object, and every selected key is in one of the two places and not in the
other. Decoding inverts encoding. -/
theorem infoBufToString_roundTrip :
    (∀ (info info₀ : Infobuf) (m : Mem QByte) (maxsize : ℕ)
      (priority ignore exclusive : Option (List CString)) (sync : InfoSync) (context : ℕ),
      (info.keys.map InfoKey.name).Nodup → (∀ key ∈ info.keys, key.WellFormed) → 1 ≤ maxsize →
      ∃ r m' sync' s,
        infoBufToString info (some m) maxsize priority ignore exclusive (some sync) context
          = some (r, m', some sync') ∧
        HoldsString m' 0 s ∧ s.strlen + 1 ≤ maxsize ∧ (∀ a, maxsize ≤ a → m' a = m a) ∧
        (∀ p, p ∈ (infoBufFromString info₀ s false).pairs ↔
          ∃ key ∈ info.keys, infoBufSelects ignore exclusive key.name = true ∧
            ¬ sync'.Reports context key.name ∧ p = (key.name, key.contents)) ∧
        ∀ key ∈ info.keys, infoBufSelects ignore exclusive key.name = true →
          (key.name ∈ (infoBufFromString info₀ s false).pairs.map Prod.fst ↔
            ¬ sync'.Reports context key.name)) ∧
    ∀ (m : Mem QByte) (n : List QByte) (out outsize : ℕ), (infoBufEncoded n).length < outsize →
      (infoBufEncodeString m n out outsize).1 = true ∧
        ∃ s, HoldsString (infoBufEncodeString m n out outsize).2 out s ∧
          infoBufDecodeString s.1 = n := by
  refine ⟨?_, fun m n out outsize h => infoBufEncodeString_roundTrip m n out h⟩
  intro info info₀ m maxsize priority ignore exclusive sync context hnodup hw hmax
  obtain ⟨st, printed, sync', hrun, hp, hpnodup, hmem⟩ :=
    infoBufToString_spec info m maxsize priority ignore exclusive sync context hnodup hw
  have hpw : ∀ key ∈ printed, key.WellFormed := fun key hk => hw key ((hmem key).1 hk).1
  have hzero : (0 : QByte) ∉ printed.flatMap InfoKey.text := by
    intro h
    obtain ⟨key, hk, h0⟩ := List.mem_flatMap.1 h
    exact zero_notMem_text (hpw key hk) (hp.small key hk) h0
  have hpairs : (infoBufFromString info₀ ⟨printed.flatMap InfoKey.text, hzero⟩ false).pairs
      = printed.map fun key => (key.name, key.contents) := by
    unfold infoBufFromString
    rw [Bool.not_false, if_pos rfl, Infobuf.clear_all]
    exact pairs_fromStringLoop _ printed hpw hp.small (by simpa [Infobuf.pairs] using hpnodup)
  have hlen : CString.strlen ⟨printed.flatMap InfoKey.text, hzero⟩ = st.o := hp.cursor.symm
  refine ⟨st.r, _, sync', ⟨printed.flatMap InfoKey.text, hzero⟩, hrun, ⟨?_, ?_⟩, ?_, ?_, ?_, ?_⟩
  · rw [hlen, Mem.store_eq_blit, Mem.slice_blit_before _ _ (by omega)]
    exact hp.written
  · rw [hlen, Nat.zero_add, Mem.store_self]
  · rw [hlen]
    rcases hp.inside with h | h <;> omega
  · intro a ha
    rw [Mem.store, if_neg, hp.untouched a (by omega)]
    rcases hp.inside with h | h <;> omega
  · intro p
    rw [hpairs, List.mem_map]
    constructor
    · rintro ⟨key, hk, rfl⟩
      obtain ⟨h₁, h₂, h₃⟩ := (hmem key).1 hk
      exact ⟨key, h₁, h₂, h₃, rfl⟩
    · rintro ⟨key, h₁, h₂, h₃, rfl⟩
      exact ⟨key, (hmem key).2 ⟨h₁, h₂, h₃⟩, rfl⟩
  · intro key hk hsel
    rw [hpairs, List.map_map, List.mem_map]
    constructor
    · rintro ⟨k, hk', hn⟩ hrep
      have hn' : k.name = key.name := hn
      exact ((hmem k).1 hk').2.2 (hn' ▸ hrep)
    · intro hno
      exact ⟨key, (hmem key).2 ⟨hk, hsel, hno⟩, rfl⟩

theorem starBuffer_roundTrip :
    ∃ r m' sync' s,
      infoBufToString starBuffer (some fun _ => 0) 16 none none none (some []) 0
        = some (r, m', some sync') ∧
      HoldsString m' 0 s ∧ s.strlen + 1 ≤ 16 := by
  obtain ⟨r, m', sync', s, hrun, hs, hlen, -⟩ := infoBufToString_roundTrip.1 starBuffer ⟨[], 0⟩
    (fun _ => 0) 16 none none none [] 0
    (starBuffer_run _ fun _ _ _ => trivial).invariant.names_nodup
    (starBuffer_run _ fun _ _ _ => trivial).invariant.wellFormed (by decide)
  exact ⟨r, m', sync', s, hrun, hs, hlen⟩

/-- A key on the `ignore` list is neither in the string nor with the sync object; and a buffer of
no bytes is written to. -/
theorem infoBufToString_ignored_and_empty :
    (∃ r m' sync' s,
      infoBufToString starBuffer (some fun _ => 0) 16 none (some [⟨[star], by decide⟩]) none
        (some []) 0 = some (r, m', some sync') ∧
      HoldsString m' 0 s ∧
      ∃ key ∈ starBuffer.keys, key.name ∉ (infoBufFromString ⟨[], 0⟩ s false).pairs.map Prod.fst ∧
        ¬ sync'.Reports 0 key.name) ∧
    ∃ r m' sync',
      infoBufToString ⟨[], 0⟩ (some fun _ => 1) 0 none none none (some []) 0
        = some (r, m', some sync') ∧ m' 0 ≠ 1 := by
  constructor
  · refine ⟨1, Mem.store (fun _ => 0) 0 0, [], ⟨[], List.not_mem_nil⟩, rfl, ⟨rfl, rfl⟩, ?_⟩
    refine ⟨_, List.mem_singleton_self _, ?_, List.not_mem_nil⟩
    unfold infoBufFromString
    rw [infoBufFromStringLoop, Bool.not_false, if_pos rfl, Infobuf.clear_all]
    exact List.not_mem_nil
  · exact ⟨1, Mem.store (fun _ => 1) 0 0, [], rfl, by decide⟩

end FteQuake
