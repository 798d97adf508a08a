import FteQuake.Common.InfoString
import Mathlib.Data.List.Flatten

/-!
# Values of info strings

`Info_ValueForKey`, `Info_RemoveKey` and `Info_SetValueForStarKey` of `common.c`, on strings
`\key\value\key\value`. A string is given by its bytes before the terminator; `none` is a write behind the
buffers of `Info_RemoveKey`.

A value is set by removing the old one and appending the new one. When there is no room for it, the key
`*ver` is given up, and the value is set in what is left (`infoSetValueForStarKey_spec`).
-/

namespace FteQuake

open List Option

namespace InfoValue

/-! ## The code -/

/-- A backslash at the front is skipped. -/
def skipBackslash (s : List QByte) : List QByte := if s.head? = some backslash then s.tail else s

/-- The loop of `Info_ValueForKey`; keys and values that do not fit its buffers give an empty value. -/
def valueLoop (s key : List QByte) : List QByte :=
  let pkey := untilBackslash s
  if 1022 ≤ pkey.1.length then []
  else if _h : pkey.2 = [] then []
  else
    let value := untilBackslash pkey.2.tail
    if 1022 ≤ value.1.length then []
    else if key = pkey.1 then value.1
    else if value.2 = [] then [] else valueLoop value.2.tail key
termination_by s.length
decreasing_by
  have hkey : pkey.2.length ≤ s.length := length_untilBackslash_le s
  have hvalue : value.2.length ≤ pkey.2.tail.length := length_untilBackslash_le pkey.2.tail
  have hpos := List.length_pos_of_ne_nil _h
  show value.2.tail.length < s.length
  rw [List.length_tail] at hvalue ⊢
  omega

/-- `Info_ValueForKey`. -/
def infoValueForKey (s key : List QByte) : List QByte := valueLoop (skipBackslash s) key

theorem length_skipBackslash_le (s : List QByte) : (skipBackslash s).length ≤ s.length := by
  unfold skipBackslash
  split
  · rw [length_tail]
    exact Nat.sub_le _ _
  · exact le_rfl

/-- The loop of `Info_RemoveKey`: what it makes of the string from a place on. -/
def removeLoop (s key : List QByte) : Option (List QByte) :=
  let pkey := untilBackslash (skipBackslash s)
  if _h : pkey.2 = [] then if 1024 < pkey.1.length then none else some s
  else
    let value := untilBackslash pkey.2.tail
    if 1024 ≤ pkey.1.length ∨ 1024 ≤ value.1.length then none
    else if key = pkey.1 then some value.2
    else if value.2 = [] then some s
    else (removeLoop value.2 key).map (s.take (s.length - value.2.length) ++ ·)
termination_by s.length
decreasing_by
  have hkey : pkey.2.length ≤ s.length := (length_untilBackslash_le _).trans (length_skipBackslash_le s)
  have hvalue : value.2.length ≤ pkey.2.tail.length := length_untilBackslash_le pkey.2.tail
  have hpos := List.length_pos_of_ne_nil _h
  show value.2.length < s.length
  rw [List.length_tail] at hvalue
  omega

/-- `Info_RemoveKey`. -/
def infoRemoveKey (s key : List QByte) : Option (List QByte) :=
  if backslash ∈ key then some s else removeLoop s key

/-- `*ver`. -/
def ver : List QByte := [0x2a, 0x76, 0x65, 0x72]

/-- The text of a key and its value. -/
def infoText (key value : List QByte) : List QByte := backslash :: key ++ backslash :: value

/-- `Info_SetValueForStarKey` behind the removal of the old value: `newv` holds 1023 bytes and the terminator. -/
def infoAppend (s key value : List QByte) (maxsize : ℤ) : List QByte :=
  let newv := (infoText key value).take 1023
  if maxsize < newv.length + s.length + 1 then s else s ++ newv.filter fun c => 13 < c

/-- `Info_SetValueForStarKey`, with so many calls of itself. The first test of the size is one of `size_t`. -/
def infoSetValueForStarKey (fuel : ℕ) (s key value : List QByte) (maxsize : ℤ) : Option (List QByte) :=
  if backslash ∈ key ∨ backslash ∈ value then some s
  else if 0x22 ∈ key ∨ 0x22 ∈ value then some s
  else if 256 ≤ key.length then some s
  else
    let v := infoValueForKey s key
    if v ≠ [] ∧ maxsize % 2 ^ 64 < value.length - v.length + s.length + 1 then
      if infoValueForKey s ver ≠ [] then
        match fuel with
        | 0 => none
        | fuel + 1 => (infoRemoveKey s ver).bind fun s => infoSetValueForStarKey fuel s key value maxsize
      else some s
    else
      (infoRemoveKey s key).map fun s => if value = [] then s else infoAppend s key value maxsize

/-! ## Strings of keys and values -/

/-- A key and its value. -/
structure Entry where
  key : List QByte
  value : List QByte
  deriving DecidableEq

def Entry.text (e : Entry) : List QByte := infoText e.key e.value

/-- The string of some keys and values. -/
def entriesText (es : List Entry) : List QByte := es.flatMap Entry.text

/-- The string is well formed: no key and no value has a backslash, and no key is there twice. -/
structure WellFormed (es : List Entry) : Prop where
  key : ∀ e ∈ es, backslash ∉ e.key
  value : ∀ e ∈ es, backslash ∉ e.value
  distinct : (es.map Entry.key).Nodup

/-- The value of a key, empty if it is not there. -/
def entryValue (key : List QByte) : List Entry → List QByte
  | [] => []
  | e :: es => if key = e.key then e.value else entryValue key es

/-- The entries without a key. -/
def eraseKey (key : List QByte) (es : List Entry) : List Entry := es.filter fun e => key ≠ e.key

section Entries

variable {es : List Entry} {e : Entry} {key k : List QByte}

@[simp] theorem length_infoText (key value : List QByte) : (infoText key value).length = key.length + value.length + 2 := by
  unfold infoText
  simp only [length_append, length_cons]
  omega

theorem entriesText_cons : entriesText (e :: es) = e.text ++ entriesText es := flatMap_cons

theorem entriesText_cons_eq :
    entriesText (e :: es) = backslash :: (e.key ++ backslash :: (e.value ++ entriesText es)) := by
  rw [entriesText_cons, Entry.text, infoText]
  simp only [cons_append, append_assoc]

theorem entriesText_append (es es' : List Entry) : entriesText (es ++ es') = entriesText es ++ entriesText es' :=
  flatMap_append

theorem entriesText_singleton (key value : List QByte) : entriesText [⟨key, value⟩] = infoText key value :=
  flatMap_singleton ..

theorem entriesText_start (es : List Entry) : entriesText es = [] ∨ (entriesText es).head? = some backslash := by
  cases es with
  | nil => exact .inl rfl
  | cons e es =>
    rw [entriesText_cons_eq]
    exact .inr rfl

theorem WellFormed.tail (h : WellFormed (e :: es)) : WellFormed es :=
  ⟨fun e he => h.key e (.tail _ he), fun e he => h.value e (.tail _ he), (nodup_cons.mp h.distinct).2⟩

theorem WellFormed.erase (h : WellFormed es) (key : List QByte) : WellFormed (eraseKey key es) :=
  ⟨fun e he => h.key e (mem_of_mem_filter he), fun e he => h.value e (mem_of_mem_filter he),
    h.distinct.sublist (filter_sublist.map _)⟩

theorem notMem_eraseKey (key : List QByte) (es : List Entry) : ∀ e ∈ eraseKey key es, key ≠ e.key :=
  fun _ he => of_decide_eq_true (mem_filter.mp he).2

theorem eraseKey_of_notMem (h : ∀ e ∈ es, key ≠ e.key) : eraseKey key es = es :=
  filter_eq_self.mpr fun e he => decide_eq_true (h e he)

theorem eraseKey_cons_self (h : WellFormed (e :: es)) : eraseKey e.key (e :: es) = es := by
  have hrest : ∀ e' ∈ es, e.key ≠ e'.key := fun e' he' heq =>
    (nodup_cons.mp h.distinct).1 (heq ▸ mem_map_of_mem he')
  rw [eraseKey, filter_cons_of_neg (by simp)]
  exact eraseKey_of_notMem hrest

theorem entryValue_of_notMem (h : ∀ e ∈ es, k ≠ e.key) : entryValue k es = [] := by
  induction es with
  | nil => rfl
  | cons e es ih =>
    rw [entryValue, if_neg (h e (.head _)), ih fun e he => h e (.tail _ he)]

theorem entryValue_append (es es' : List Entry) (h : ∀ e ∈ es, k ≠ e.key) :
    entryValue k (es ++ es') = entryValue k es' := by
  induction es with
  | nil => rfl
  | cons e es ih =>
    rw [cons_append, entryValue, if_neg (h e (.head _)), ih fun e he => h e (.tail _ he)]

theorem entryValue_append_of_notMem (es es' : List Entry) (h : ∀ e ∈ es', k ≠ e.key) :
    entryValue k (es ++ es') = entryValue k es := by
  induction es with
  | nil => exact entryValue_of_notMem h
  | cons e es ih => rw [cons_append, entryValue, entryValue, ih]

theorem entryValue_erase (hk : k ≠ key) (es : List Entry) : entryValue k (eraseKey key es) = entryValue k es := by
  induction es with
  | nil => rfl
  | cons e es ih =>
    rw [eraseKey]
    by_cases he : key = e.key
    · rw [filter_cons_of_neg (by simp [he]), entryValue, if_neg (he ▸ hk)]
      exact ih
    · rw [filter_cons_of_pos (by simp [he]), entryValue, entryValue]
      exact congrArg _ ih

theorem entryValue_mem (h : entryValue key es ≠ []) : ⟨key, entryValue key es⟩ ∈ es := by
  induction es with
  | nil => exact absurd rfl h
  | cons e es ih =>
    rw [entryValue] at h ⊢
    by_cases he : key = e.key
    · rw [if_pos he, he]
      exact .head _
    · rw [if_neg he] at h ⊢
      exact .tail _ (ih h)

/-- The string is shorter by what is removed. -/
theorem length_eraseKey (h : WellFormed es) (he : e ∈ es) :
    (entriesText (eraseKey e.key es)).length + (e.key.length + e.value.length + 2) = (entriesText es).length := by
  induction es with
  | nil => cases he
  | cons e' es ih =>
    rcases mem_cons.mp he with rfl | he
    · rw [eraseKey_cons_self h, entriesText_cons, length_append, Entry.text, length_infoText]
      omega
    · have hne : e.key ≠ e'.key := fun heq =>
        (nodup_cons.mp h.distinct).1 (heq ▸ mem_map_of_mem he)
      have hcons : eraseKey e.key (e' :: es) = e' :: eraseKey e.key es :=
        filter_cons_of_pos (by simp [hne])
      rw [hcons, entriesText_cons, entriesText_cons, length_append, length_append, ← ih h.tail he]
      omega

theorem length_eraseKey_le (key : List QByte) (es : List Entry) :
    (entriesText (eraseKey key es)).length ≤ (entriesText es).length :=
  (filter_sublist.flatMap Entry.text).length_le

/-- Every part of a string is shorter than it. -/
theorem length_entry_le (he : e ∈ es) : e.key.length + e.value.length + 2 ≤ (entriesText es).length := by
  induction es with
  | nil => cases he
  | cons e' es ih =>
    rw [entriesText_cons, length_append, Entry.text, length_infoText]
    rcases mem_cons.mp he with rfl | he
    · omega
    · have := ih he
      omega

end Entries

section Strings

variable {es : List Entry} {e : Entry} {key : List QByte}

theorem ne_of_notMem {s : List QByte} (h : backslash ∉ s) : ∀ c ∈ s, c ≠ backslash :=
  fun _ hc heq => h (heq ▸ hc)

/-- The parts of a string are found again. -/
theorem entry_parts (h : WellFormed (e :: es)) (hlen : (entriesText (e :: es)).length < 1024) :
    e.key.length + e.value.length + 2 ≤ (entriesText (e :: es)).length ∧ (entriesText es).length < 1024 ∧
      skipBackslash (entriesText (e :: es)) = e.key ++ backslash :: (e.value ++ entriesText es) ∧
      untilBackslash (e.key ++ backslash :: (e.value ++ entriesText es)) =
        (e.key, backslash :: (e.value ++ entriesText es)) ∧
      untilBackslash (e.value ++ entriesText es) = (e.value, entriesText es) := by
  refine ⟨length_entry_le (.head _), ?_, ?_, untilBackslash_append (ne_of_notMem (h.key e (.head _))) (.inr rfl),
    untilBackslash_append (ne_of_notMem (h.value e (.head _))) (entriesText_start es)⟩
  · rw [entriesText_cons, length_append] at hlen
    omega
  · rw [entriesText_cons_eq]
    rfl

/-- `Info_ValueForKey` on a well-formed string. -/
theorem infoValueForKey_entries (h : WellFormed es) (hlen : (entriesText es).length < 1024) (key : List QByte) :
    infoValueForKey (entriesText es) key = entryValue key es := by
  unfold infoValueForKey
  induction es with
  | nil =>
    show valueLoop [] key = []
    rw [valueLoop]
    rfl
  | cons e es ih =>
    obtain ⟨he, hshorter, hskip, hkey, hvalue⟩ := entry_parts h hlen
    rw [hskip, valueLoop]
    simp only [hkey, tail_cons, hvalue]
    rw [if_neg (by omega), dif_neg (cons_ne_nil _ _), if_neg (by omega), entryValue]
    by_cases hmatch : key = e.key
    · rw [if_pos hmatch, if_pos hmatch]
    · rw [if_neg hmatch, if_neg hmatch, ← ih h.tail hshorter]
      rcases entriesText_start es with hend | hnext
      · rw [if_pos hend, hend]
        show [] = valueLoop [] key
        rw [valueLoop]
        rfl
      · rw [if_neg (by rintro hnil; rw [hnil] at hnext; cases hnext), skipBackslash, if_pos hnext]

/-- `Info_RemoveKey` on a well-formed string. -/
theorem infoRemoveKey_entries (h : WellFormed es) (hlen : (entriesText es).length < 1024) (hslash : backslash ∉ key) :
    infoRemoveKey (entriesText es) key = some (entriesText (eraseKey key es)) := by
  rw [infoRemoveKey, if_neg hslash]
  induction es with
  | nil =>
    show removeLoop [] key = some []
    rw [removeLoop]
    rfl
  | cons e es ih =>
    obtain ⟨he, hshorter, hskip, hkey, hvalue⟩ := entry_parts h hlen
    have htake : (entriesText (e :: es)).take ((entriesText (e :: es)).length - (entriesText es).length) = e.text := by
      rw [entriesText_cons, length_append, Nat.add_sub_cancel, take_left]
    rw [removeLoop, hskip]
    simp only [hkey, tail_cons, hvalue]
    rw [dif_neg (cons_ne_nil _ _), if_neg (by omega)]
    by_cases hmatch : key = e.key
    · rw [if_pos hmatch, hmatch, eraseKey_cons_self h]
    · have hcons : eraseKey key (e :: es) = e :: eraseKey key es := filter_cons_of_pos (by simp [hmatch])
      rw [if_neg hmatch, hcons, htake]
      by_cases hend : entriesText es = []
      · have hnil : es = [] := by
          cases es with
          | nil => rfl
          | cons e' es' =>
            rw [entriesText_cons_eq] at hend
            cases hend
        subst hnil
        rw [if_pos hend]
        rfl
      · rw [if_neg hend, ih h.tail hshorter, map_some, entriesText_cons]

end Strings

/-! ## Setting a value -/

/-- A key or value that is stored as it is: it has no backslash, no quote and no byte below 14. -/
def Plain (t : List QByte) : Prop := ∀ c ∈ t, c ≠ backslash ∧ c ≠ 0x22 ∧ 13 < c

/-- A string `s'` has the value of the key, and of all others what `s` has, and fits; or it is `s`. -/
def SetsOrKeeps (s s' key value : List QByte) (maxsize : ℤ) : Prop :=
  (infoValueForKey s' key = value ∧ (∀ k ≠ key, infoValueForKey s' k = infoValueForKey s k) ∧
    (s'.length : ℤ) + 1 ≤ maxsize) ∨ s' = s

/-- The value that is there would grow out of the string, and there is a `*ver` to give up. -/
def GivesUpVer (s key value : List QByte) (maxsize : ℤ) : Prop :=
  key.length < 256 ∧ infoValueForKey s key ≠ [] ∧ infoValueForKey s ver ≠ [] ∧
    maxsize < value.length - (infoValueForKey s key).length + s.length + 1

instance (s key value : List QByte) (maxsize : ℤ) : Decidable (GivesUpVer s key value maxsize) :=
  inferInstanceAs (Decidable (_ ∧ _))

section Set

variable {es : List Entry} {key value : List QByte} {maxsize : ℤ}

theorem Plain.notMem (h : Plain key) : backslash ∉ key ∧ 0x22 ∉ key :=
  ⟨fun hmem => (h _ hmem).1 rfl, fun hmem => (h _ hmem).2.1 rfl⟩

/-- What is appended, when `newv` is not cut off. -/
theorem infoAppend_fits (hkey : Plain key) (hvalue : Plain value) (hmax : maxsize ≤ 1024)
    (hfits : (key.length + value.length + 2 + (entriesText es).length + 1 : ℤ) ≤ maxsize) :
    infoAppend (entriesText es) key value maxsize = entriesText (es ++ [⟨key, value⟩]) := by
  have htake : (infoText key value).take 1023 = infoText key value :=
    take_of_length_le (by rw [length_infoText]; omega)
  have hbytes : (infoText key value).filter (fun c => 13 < c) = infoText key value := by
    refine filter_eq_self.mpr fun c hc => decide_eq_true ?_
    unfold infoText at hc
    simp only [cons_append, mem_cons, mem_append] at hc
    rcases hc with rfl | hc | rfl | hc
    · decide
    · exact (hkey c hc).2.2
    · decide
    · exact (hvalue c hc).2.2
  unfold infoAppend
  simp only [htake, hbytes, length_infoText]
  rw [if_neg (by push_cast; omega), entriesText_append, entriesText_singleton]

/-- Nothing is appended when the rest and `newv` do not fit. -/
theorem infoAppend_refused {s : List QByte}
    (h : maxsize < key.length + value.length + 2 + s.length + 1) (hcut : maxsize < 1023 + s.length + 1) :
    infoAppend s key value maxsize = s := by
  unfold infoAppend
  simp only [length_take, length_infoText]
  rw [if_pos (by push_cast; omega)]

/-- The new entry is what the string gives. -/
theorem setsOrKeeps_append (hes : WellFormed es) (hkey : Plain key) (hvalue : Plain value)
    (hlen : (entriesText es).length < maxsize) (hmax : maxsize ≤ 1024)
    (hfits : (key.length + value.length + 2 + (entriesText (eraseKey key es)).length + 1 : ℤ) ≤ maxsize) :
    SetsOrKeeps (entriesText es) (infoAppend (entriesText (eraseKey key es)) key value maxsize) key value maxsize := by
  have hnew : WellFormed (eraseKey key es ++ [⟨key, value⟩]) := by
    have herase := hes.erase key
    refine ⟨fun e he => ?_, fun e he => ?_, ?_⟩
    · rcases mem_append.mp he with he | he
      · exact herase.key e he
      · rw [mem_singleton.mp he]
        exact hkey.notMem.1
    · rcases mem_append.mp he with he | he
      · exact herase.value e he
      · rw [mem_singleton.mp he]
        exact hvalue.notMem.1
    · rw [map_append, nodup_append]
      refine ⟨herase.distinct, nodup_singleton _, fun k hk k' hk' heq => ?_⟩
      obtain ⟨e, he, rfl⟩ := mem_map.mp hk
      exact notMem_eraseKey key es e he ((mem_singleton.mp hk').symm.trans heq.symm)
  have hlength : ((entriesText (eraseKey key es ++ [⟨key, value⟩])).length : ℤ) + 1 ≤ maxsize := by
    rw [entriesText_append, entriesText_singleton, length_append, length_infoText]
    push_cast
    omega
  rw [infoAppend_fits hkey hvalue hmax hfits]
  refine .inl ⟨?_, fun k hk => ?_, hlength⟩
  · rw [infoValueForKey_entries hnew (by omega), entryValue_append _ _ (notMem_eraseKey key es), entryValue,
      if_pos rfl]
  · rw [infoValueForKey_entries hnew (by omega), infoValueForKey_entries hes (by omega),
      entryValue_append_of_notMem _ _ (fun e he => by rw [mem_singleton.mp he]; exact hk), entryValue_erase hk]

theorem setsOrKeeps_erase (hes : WellFormed es) (hlen : (entriesText es).length < maxsize) (hmax : maxsize ≤ 1024) :
    SetsOrKeeps (entriesText es) (entriesText (eraseKey key es)) key [] maxsize := by
  have hshorter := length_eraseKey_le key es
  refine .inl ⟨?_, fun k hk => ?_, by omega⟩
  · rw [infoValueForKey_entries (hes.erase key) (by omega), entryValue_of_notMem (notMem_eraseKey key es)]
  · rw [infoValueForKey_entries (hes.erase key) (by omega), infoValueForKey_entries hes (by omega),
      entryValue_erase hk]

/-- A key that is there has its own value. -/
theorem entryValue_of_mem (hes : WellFormed es) {e : Entry} (he : e ∈ es) : entryValue e.key es = e.value := by
  induction es with
  | nil => cases he
  | cons e' es ih =>
    rw [entryValue]
    rcases mem_cons.mp he with rfl | he
    · rw [if_pos rfl]
    · have hne : e.key ≠ e'.key := fun heq =>
        (nodup_cons.mp hes.distinct).1 (heq ▸ mem_map_of_mem he)
      rw [if_neg hne, ih hes.tail he]

/-- Where the first test of the size lets it pass, the value is set or the string is kept. -/
theorem setsOrKeeps_pass (hes : WellFormed es) (hkey : Plain key) (hvalue : Plain value)
    (hlen : (entriesText es).length < maxsize) (hmax : maxsize ≤ 1024)
    (hpass : entryValue key es ≠ [] →
      (value.length - (entryValue key es).length + (entriesText es).length + 1 : ℤ) ≤ maxsize)
    (hempty : ⟨key, []⟩ ∈ es → (value.length + (entriesText es).length + 1 : ℤ) ≤ maxsize)
    (hcut : es = [] → maxsize < 1024 ∨ key.length + value.length + 2 < 1024) :
    SetsOrKeeps (entriesText es) (if value = [] then entriesText (eraseKey key es)
      else infoAppend (entriesText (eraseKey key es)) key value maxsize) key value maxsize := by
  by_cases hnil : value = []
  · rw [if_pos hnil, hnil]
    exact setsOrKeeps_erase hes hlen hmax
  rw [if_neg hnil]
  by_cases hmem : ∃ e ∈ es, key = e.key
  · obtain ⟨e, he, rfl⟩ := hmem
    have herase := length_eraseKey hes he
    have hold := entryValue_of_mem hes he
    refine setsOrKeeps_append hes hkey hvalue hlen hmax ?_
    by_cases hzero : e.value = []
    · have := hempty (hzero ▸ he)
      rw [hzero, length_nil] at herase
      omega
    · have := hpass (hold ▸ hzero)
      rw [hold] at this
      omega
  · have herase : eraseKey key es = es := eraseKey_of_notMem fun e he heq => hmem ⟨e, he, heq⟩
    by_cases hfits : (key.length + value.length + 2 + (entriesText es).length + 1 : ℤ) ≤ maxsize
    · exact setsOrKeeps_append hes hkey hvalue hlen hmax (by rw [herase]; exact hfits)
    · rw [herase]
      refine .inr (infoAppend_refused (not_le.mp hfits) ?_)
      rcases es with _ | ⟨e, es⟩
      · have := hcut rfl
        have hzero : (entriesText []).length = 0 := rfl
        omega
      · have := length_entry_le (mem_cons_self (a := e) (l := es))
        omega

/-- `Info_SetValueForStarKey` where the first test of the size lets it pass. -/
theorem infoSetValueForStarKey_pass {fuel : ℕ} (hes : WellFormed es) (hkey : Plain key) (hvalue : Plain value)
    (hshort : key.length < 256) (hlen : (entriesText es).length < maxsize) (hmax : maxsize ≤ 1024)
    (hpass : entryValue key es ≠ [] →
      (value.length - (entryValue key es).length + (entriesText es).length + 1 : ℤ) ≤ maxsize) :
    infoSetValueForStarKey fuel (entriesText es) key value maxsize = some (if value = [] then
      entriesText (eraseKey key es) else infoAppend (entriesText (eraseKey key es)) key value maxsize) := by
  unfold infoSetValueForStarKey
  rw [if_neg (not_or.mpr ⟨hkey.notMem.1, hvalue.notMem.1⟩), if_neg (not_or.mpr ⟨hkey.notMem.2, hvalue.notMem.2⟩),
    if_neg (by omega)]
  simp only
  rw [infoValueForKey_entries hes (by omega), if_neg, infoRemoveKey_entries hes (by omega) hkey.notMem.1,
    map_some]
  rintro ⟨hold, hlong⟩
  have := hpass hold
  omega

end Set

section Spec

variable {es : List Entry} {key value : List QByte} {maxsize : ℤ}

theorem backslash_notMem_ver : backslash ∉ ver := by decide

/-- Where the first test of the size does not let it pass. -/
theorem infoSetValueForStarKey_full (hes : WellFormed es) (hkey : Plain key) (hvalue : Plain value)
    (hshort : key.length < 256) (hlen : (entriesText es).length < maxsize) (hmax : maxsize ≤ 1024)
    (hold : entryValue key es ≠ [])
    (hlong : maxsize < value.length - (entryValue key es).length + (entriesText es).length + 1) (fuel : ℕ) :
    infoSetValueForStarKey fuel (entriesText es) key value maxsize =
      if entryValue ver es ≠ [] then
        match fuel with
        | 0 => none
        | fuel + 1 => infoSetValueForStarKey fuel (entriesText (eraseKey ver es)) key value maxsize
      else some (entriesText es) := by
  rw [infoSetValueForStarKey.eq_def, if_neg (not_or.mpr ⟨hkey.notMem.1, hvalue.notMem.1⟩),
    if_neg (not_or.mpr ⟨hkey.notMem.2, hvalue.notMem.2⟩), if_neg (not_le.mpr hshort)]
  simp only [infoValueForKey_entries hes (by omega : (entriesText es).length < 1024),
    infoRemoveKey_entries hes (by omega : (entriesText es).length < 1024) backslash_notMem_ver, bind_some]
  rw [if_pos ⟨hold, by omega⟩]

/-- **A value is set, with all others as they were and within the size, or the string is kept, of the string itself
or, where its value would grow out of it and there is a `*ver`, of what is left without that.** The two
cases are left out in which the removal of an empty value, or the cut that `newv` makes in a string that is
otherwise empty, are not undone. -/
theorem infoSetValueForStarKey_spec (hes : WellFormed es) (hkey : Plain key) (hvalue : Plain value)
    (hlen : (entriesText es).length < maxsize) (hmax : maxsize ≤ 1024)
    (hempty : ⟨key, []⟩ ∈ es → (value.length + (entriesText es).length + 1 : ℤ) ≤ maxsize)
    (hcut : (∀ e ∈ es, e.key = ver ∧ key = ver) → maxsize < 1024 ∨ key.length + value.length + 2 < 1024) (fuel : ℕ) :
    ∃ s₁ s', infoSetValueForStarKey (fuel + 1) (entriesText es) key value maxsize = some s' ∧
      (if GivesUpVer (entriesText es) key value maxsize then infoRemoveKey (entriesText es) ver
        else some (entriesText es)) = some s₁ ∧
      SetsOrKeeps s₁ s' key value maxsize := by
  have hvalueOf := infoValueForKey_entries hes (by omega)
  by_cases hshort : 256 ≤ key.length
  · refine ⟨entriesText es, entriesText es, ?_, if_neg fun h => absurd h.1 (not_lt.mpr hshort), .inr rfl⟩
    unfold infoSetValueForStarKey
    rw [if_neg (not_or.mpr ⟨hkey.notMem.1, hvalue.notMem.1⟩), if_neg (not_or.mpr ⟨hkey.notMem.2, hvalue.notMem.2⟩),
      if_pos hshort]
  by_cases hpass : entryValue key es ≠ [] →
      (value.length - (entryValue key es).length + (entriesText es).length + 1 : ℤ) ≤ maxsize
  · refine ⟨entriesText es, _, infoSetValueForStarKey_pass hes hkey hvalue (not_le.mp hshort) hlen hmax hpass,
      if_neg fun h => ?_, setsOrKeeps_pass hes hkey hvalue hlen hmax hpass hempty fun hnil => hcut (by simp [hnil])⟩
    obtain ⟨-, hold, -, hlong⟩ := h
    rw [hvalueOf] at hold hlong
    have := hpass hold
    omega
  obtain ⟨hold, hlong⟩ : entryValue key es ≠ [] ∧
      maxsize < value.length - (entryValue key es).length + (entriesText es).length + 1 :=
    (Classical.not_imp.mp hpass).imp id not_le.mp
  have hstep := infoSetValueForStarKey_full hes hkey hvalue (not_le.mp hshort) hlen hmax hold hlong (fuel + 1)
  rw [hstep]
  by_cases hver : entryValue ver es = []
  · rw [if_neg (not_not_intro hver), if_neg fun h => h.2.2.1 (hvalueOf ver ▸ hver)]
    exact ⟨_, _, rfl, rfl, .inr rfl⟩
  have hgives : GivesUpVer (entriesText es) key value maxsize :=
    ⟨not_le.mp hshort, hvalueOf key ▸ hold, hvalueOf ver ▸ hver, hvalueOf key ▸ hlong⟩
  have hshorter := length_eraseKey_le ver es
  have hes₁ := hes.erase ver
  have hverOf : entryValue ver (eraseKey ver es) = [] := entryValue_of_notMem (notMem_eraseKey ver es)
  rw [if_pos hver, if_pos hgives, infoRemoveKey_entries hes (by omega) backslash_notMem_ver]
  refine ⟨entriesText (eraseKey ver es), ?_⟩
  by_cases hpass₁ : entryValue key (eraseKey ver es) ≠ [] →
      (value.length - (entryValue key (eraseKey ver es)).length + (entriesText (eraseKey ver es)).length + 1 : ℤ) ≤ maxsize
  · have hmem := entryValue_mem hold
    refine ⟨_, infoSetValueForStarKey_pass hes₁ hkey hvalue (not_le.mp hshort) (by omega) hmax hpass₁, rfl,
      setsOrKeeps_pass hes₁ hkey hvalue (by omega) hmax hpass₁ (fun hzero => ?_) fun hnil => hcut fun e he => ?_⟩
    · exact absurd (entryValue_of_mem hes (List.mem_of_mem_filter hzero)) hold
    · -- only `*ver` was there, so it is the key
      have hall : ∀ e ∈ es, e.key = ver := fun e he => by
        by_contra hne
        have hleft : e ∈ eraseKey ver es := List.mem_filter.mpr ⟨he, decide_eq_true fun heq => hne heq.symm⟩
        rw [hnil] at hleft
        cases hleft
      exact ⟨hall e he, hall _ hmem⟩
  · obtain ⟨hold₁, hlong₁⟩ : entryValue key (eraseKey ver es) ≠ [] ∧
        maxsize < value.length - (entryValue key (eraseKey ver es)).length + (entriesText (eraseKey ver es)).length + 1 :=
      (Classical.not_imp.mp hpass₁).imp id not_le.mp
    refine ⟨entriesText (eraseKey ver es), ?_, rfl, .inr rfl⟩
    have hkept := infoSetValueForStarKey_full hes₁ hkey hvalue (not_le.mp hshort) (by omega) hmax hold₁ hlong₁ fuel
    rwa [if_neg (not_not_intro hverOf)] at hkept

/-- In a string with a version and another key. -/
def verText : List Entry := [⟨ver, [0x31]⟩, ⟨[0x61], [0x62]⟩]

theorem verText_wellFormed : WellFormed verText := ⟨by decide, by decide, by decide⟩

theorem infoSetValueForStarKey_verText :
    ∃ s₁ s', infoSetValueForStarKey 1 (entriesText verText) [0x61] [0x63] 64 = some s' ∧
      (if GivesUpVer (entriesText verText) [0x61] [0x63] 64 then infoRemoveKey (entriesText verText) ver
        else some (entriesText verText)) = some s₁ ∧
      SetsOrKeeps s₁ s' [0x61] [0x63] 64 :=
  infoSetValueForStarKey_spec verText_wellFormed (by unfold Plain; decide) (by unfold Plain; decide) (by decide)
    (by decide) (fun h => absurd h (by decide)) (fun _ => .inl (by decide)) 0

/-- A value of two bytes in place of one byte, in a string that is full, costs the version. -/
theorem infoSetValueForStarKey_forgets :
    ¬∀ (es : List Entry) (key value : List QByte) (maxsize : ℤ), WellFormed es → Plain key → Plain value →
      (entriesText es).length < maxsize → maxsize ≤ 1024 → ∃ fuel s',
        infoSetValueForStarKey fuel (entriesText es) key value maxsize = some s' ∧
        SetsOrKeeps (entriesText es) s' key value maxsize := by
  intro h
  have hkey : Plain [0x61] := by unfold Plain; decide
  have hvalue : Plain [0x63, 0x64] := by unfold Plain; decide
  obtain ⟨fuel, s', hs', hclaim⟩ := h verText [0x61] [0x63, 0x64] 12 verText_wellFormed hkey hvalue (by decide) (by decide)
  rw [infoSetValueForStarKey_full verText_wellFormed hkey hvalue (by decide) (by decide) (by decide) (by decide)
    (by decide), if_pos (by decide)] at hs'
  cases fuel with
  | zero => cases hs'
  | succ fuel =>
    have hwf := verText_wellFormed.erase ver
    simp only at hs'
    rw [infoSetValueForStarKey_pass hwf hkey hvalue (by decide) (by decide) (by decide) fun _ => by decide,
      if_neg (by decide), infoAppend_fits hkey hvalue (by decide) (by decide)] at hs'
    obtain rfl := Option.some.inj hs'
    have hnew : WellFormed (eraseKey [0x61] (eraseKey ver verText) ++ [⟨[0x61], [0x63, 0x64]⟩]) :=
      ⟨by decide, by decide, by decide⟩
    rcases hclaim with ⟨-, hothers, -⟩ | heq
    · have hver := hothers ver (by decide)
      rw [infoValueForKey_entries hnew (by decide), infoValueForKey_entries verText_wellFormed (by decide)] at hver
      exact absurd hver (by decide)
    · exact absurd heq (by decide)

end Spec

end InfoValue

end FteQuake
