import FteQuake.Common.Infobuf
import FteQuake.Lib.BoundedMemory
import Mathlib.Data.List.Infix

/-!
# Dumps of entities

`PR_Cat` of `pr_edict.c`, which appends to the text in a buffer what there is room for, `PR_SaveEnt`,
which writes the fields of an entity with it, and `PR_ValueString`, which adds that to the text of a
value. What the strings and values of a program look like (`PR_StringToNative`, `PR_UglyValueString`,
and the text that `PR_ValueString` formats before the fields) is given.

Appending stays in the buffer and keeps a first part of the text, whatever is appended
(`prCatAll_slice`). But a text that is cut off gets the character behind the cut for its terminator, so
that the buffer holds a string only if all of the text fits (`dumped_iff`).
-/

namespace FteQuake

open List Option

namespace EntityDump

/-! ## `PR_Cat` -/

/-- `PR_Cat`: the buffer and the length of its text. Its sizes are `size_t`. -/
def prCat (bufmax : ℕ) (text : CString) (s : Mem QByte × ℕ) : Option (Mem QByte × ℕ) :=
  let (out, len) := s
  let newl := text.strlen
  let max := (bufmax + (2 ^ 64 - 1)) % 2 ^ 64
  let newl := if len + newl > max then (max + 2 ^ 64 - len) % 2 ^ 64 else newl
  if newl ≤ text.strlen then
    (out.puts bufmax len ((text.1 ++ [0]).take (newl + 1))).map fun out => (out, len + newl)
  else none

/-- `AddS` of one text after the other. -/
def prCatAll (bufmax : ℕ) : List CString → Mem QByte × ℕ → Option (Mem QByte × ℕ)
  | [], s => some s
  | text :: texts, s => (prCat bufmax text s).bind (prCatAll bufmax texts)

/-! ## The text of an entity -/

/-- `etype_t`. -/
inductive EType
  | void | string | float | vector | entity | field | function | pointer | integer | uint | int64 | uint64
  | double | variant | struct | union | accessor | enum | typedef | boolean | bitfld
  deriving DecidableEq

/-- `type_size`, where a string and a function are 32 bits. -/
def typeSize : EType → ℕ
  | .vector | .variant => 3
  | .int64 | .uint64 | .double => 2
  | .struct | .union | .accessor | .enum | .typedef | .bitfld => 0
  | _ => 1

/-- `fdef_t`, with the flag `DEF_SAVEGLOBAL` of its type apart. -/
structure Fdef where
  type : EType
  saveglobal : Bool
  ofs : ℤ
  name : CString

/-- What a dump reads of an instance: its fields, the edicts, each with the words of its fields, and the
texts of strings and values. -/
structure Instance where
  field : List Fdef
  svNumEdicts : ℕ
  edict : ℕ → Option (ℤ → BitVec 32)
  stringToNative : BitVec 32 → CString
  uglyValueString : EType → (ℤ → BitVec 32) → CString

/-- The strings of the source: an open and a closed brace on a line, a quote, what is between a name and a
value, and what ends a value. -/
def openText : CString := ⟨[0x7b, 0x0a], by decide⟩
def closeText : CString := ⟨[0x7d, 0x0a], by decide⟩
def quoteText : CString := ⟨[0x22], by decide⟩
def betweenText : CString := ⟨[0x22, 0x20, 0x22], by decide⟩
def endText : CString := ⟨[0x22, 0x0a], by decide⟩

/-- The name of a part of a vector: `_x`, `_y` and `_z` at its end. -/
def IsPart (name : List QByte) : Prop :=
  name.length > 2 ∧ name.getD (name.length - 2) 0 = 0x5f ∧
    (name.getD (name.length - 1) 0 = 0x78 ∨ name.getD (name.length - 1) 0 = 0x79 ∨
      name.getD (name.length - 1) 0 = 0x7a)

instance (name : List QByte) : Decidable (IsPart name) := inferInstanceAs (Decidable (_ ∧ _ ∧ _))

/-- `"classname"`. -/
def classnameText : List QByte := [0x63, 0x6c, 0x61, 0x73, 0x73, 0x6e, 0x61, 0x6d, 0x65]

/-- `ED_FindField`. -/
def edFindField (p : Instance) (name : List QByte) : Option Fdef := p.field.find? fun d => d.name.1 = name

/-- The class of an entity. -/
def classname (p : Instance) (fields : ℤ → BitVec 32) : List QByte :=
  match edFindField p classnameText with
  | some d => (p.stringToNative (fields d.ofs)).1
  | none => []

/-- `!strncmp(mname, classname, classnamelen) && mname[classnamelen] == ':'`. -/
def MatchesClass (mname classname : List QByte) : Prop :=
  classname <+: mname ∧ mname.getD classname.length 0 = 0x3a

instance (mname classname : List QByte) : Decidable (MatchesClass mname classname) :=
  inferInstanceAs (Decidable (_ ∧ _))

/-- The name that a field is saved under, if it is saved. The fields behind it are `later`. -/
def savedName (p : Instance) (fields : ℤ → BitVec 32) (d : Fdef) (later : List Fdef) : Option CString :=
  if [0x3a, 0x3a] <:+: d.name.1 then
    if d.name.1.getD 0 0 ≠ 0x3a then none
    else some (((later.find? fun e => e.ofs = d.ofs ∧ MatchesClass e.name.1 (classname p fields)).map
      (·.name)).getD d.name)
  else some d.name

/-- The value of a field is all 0. -/
def IsZero (fields : ℤ → BitVec 32) (d : Fdef) : Prop := ∀ j < typeSize d.type, fields (d.ofs + j) = 0

instance (fields : ℤ → BitVec 32) (d : Fdef) : Decidable (IsZero fields d) :=
  inferInstanceAs (Decidable (∀ j < _, _))

/-- The texts that a field adds. -/
def fieldTexts (p : Instance) (fields : ℤ → BitVec 32) (d : Fdef) (later : List Fdef) : List CString :=
  if IsPart d.name.1 then []
  else if IsZero fields d then []
  else match savedName p fields d later with
    | none => []
    | some name => [quoteText, name, betweenText, p.uglyValueString d.type fun j => fields (d.ofs + j),
        endText]

/-- The texts of some fields. -/
def fieldsTexts (p : Instance) (fields : ℤ → BitVec 32) : List Fdef → List CString
  | [] => []
  | d :: later => fieldTexts p fields d later ++ fieldsTexts p fields later

/-- The texts that `PR_SaveEnt` adds. -/
def entityTexts (p : Instance) (fields : ℤ → BitVec 32) : List CString :=
  openText :: (fieldsTexts p fields p.field ++ [closeText])

/-- `PR_SaveEnt`. -/
def prSaveEnt (p : Instance) (bufmax : ℕ) (fields : ℤ → BitVec 32) (s : Mem QByte × ℕ) :
    Option (Mem QByte × ℕ) :=
  prCatAll bufmax (entityTexts p fields) s

/-- `sizeof(line)`. -/
def lineSize : ℕ := 4096

/-- `QC_snprintfz`, of a text. -/
def qcSnprintfz (line : Mem QByte) (text : CString) : Mem QByte := line.blit 0 (text.1.take (lineSize - 1) ++ [0])

/-- `PR_ValueString` of a value that `pr_types` gives the type `type`, and whose `edict` is read if that is
an entity: `text` is what is formatted. -/
def prValueString (p : Instance) (type : EType) (edict : BitVec 32) (verbose : Bool) (text : CString)
    (line : Mem QByte) : Option (Mem QByte) :=
  let line := qcSnprintfz line text
  if type = .entity ∧ verbose ∧ edict.toNat < p.svNumEdicts then
    match p.edict edict.toNat with
    | some fields => (prSaveEnt p lineSize fields (line, line.strlen lineSize 0)).map (·.1)
    | none => some line
  else some line

/-! ## What is appended -/

section Cat

variable {bufmax len : ℕ} {m m' : Mem QByte} {full : List QByte} {text : CString} {texts : List CString}

/-- The characters that are appended to a text of length `len`. -/
def taken (bufmax len : ℕ) (text : CString) : ℕ := min text.strlen (bufmax - 1 - len)

/-- `PR_Cat` stays in the buffer. The character behind those it appends is the one of the text there. -/
theorem prCat_eq (hmax : bufmax < 2 ^ 64) (hlen : len < bufmax) (text : CString) (m : Mem QByte) :
    prCat bufmax text (m, len) = some (m.blit len ((text.1 ++ [0]).take (taken bufmax len text + 1)),
      len + taken bufmax len text) := by
  have hdec : (bufmax + (2 ^ 64 - 1)) % 2 ^ 64 = bufmax - 1 := by omega
  have hnewl : (if len + text.strlen > bufmax - 1 then (bufmax - 1 + 2 ^ 64 - len) % 2 ^ 64 else text.strlen) =
      taken bufmax len text := by
    rw [taken]
    split <;> omega
  have htaken : taken bufmax len text ≤ text.strlen := Nat.min_le_left _ _
  have hroom : len + ((text.1 ++ [0]).take (taken bufmax len text + 1)).length ≤ bufmax := by
    have : taken bufmax len text ≤ bufmax - 1 - len := Nat.min_le_right _ _
    rw [length_take]
    omega
  simp only [prCat, hdec, hnewl, if_pos htaken, Mem.puts_of_le hroom, map_some]

/-- The text of a buffer, as far as there is room. -/
structure Kept (bufmax : ℕ) (full : List QByte) (s : Mem QByte × ℕ) : Prop where
  len : s.2 = min full.length (bufmax - 1)
  slice : s.1.slice 0 s.2 = full.take s.2

theorem Kept.lt (h : Kept bufmax full (m, len)) (hpos : 0 < bufmax) : len < bufmax := by
  have hlen : len = min full.length (bufmax - 1) := h.len
  omega

/-- One more text. -/
theorem Kept.prCat (h : Kept bufmax full (m, len)) (hmax : bufmax < 2 ^ 64) (hpos : 0 < bufmax) (text : CString) :
    ∃ s, prCat bufmax text (m, len) = some s ∧ Kept bufmax (full ++ text.1) s := by
  refine ⟨_, prCat_eq hmax (h.lt hpos) text m, ?_, ?_⟩
  · have hlen : len = min full.length (bufmax - 1) := h.len
    simp only [taken, CString.strlen, length_append]
    omega
  · have hlen : len = min full.length (bufmax - 1) := h.len
    have hslice : m.slice 0 len = full.take len := h.slice
    have htaken : taken bufmax len text ≤ text.1.length := Nat.min_le_left _ _
    have hlength : ((text.1 ++ [0]).take (taken bufmax len text + 1)).length = taken bufmax len text + 1 := by
      simp [htaken]
    have hwhole := Mem.slice_blit_append m 0 len ((text.1 ++ [0]).take (taken bufmax len text + 1))
    rw [Nat.zero_add, hlength, hslice] at hwhole
    change (m.blit len _).slice 0 (len + taken bufmax len text) = (full ++ text.1).take (len + taken bufmax len text)
    rw [← Mem.take_slice _ 0 (len + (taken bufmax len text + 1)) _ (by omega), hwhole]
    rcases Nat.lt_or_ge (bufmax - 1) full.length with hover | hfit
    · -- there is no room, and nothing is added
      have hnone : taken bufmax len text = 0 := by
        rw [taken]
        omega
      rw [hnone, Nat.add_zero, take_append_of_le_length (by rw [length_take]; omega), take_take,
        Nat.min_self, take_append_of_le_length (by omega)]
    · have hall : len = full.length := by omega
      subst hall
      rw [take_length, take_length_add_append, take_length_add_append, take_take,
        Nat.min_eq_left (Nat.le_succ _), take_append_of_le_length htaken]

variable {s : Mem QByte × ℕ}

/-- **Whatever is appended, the buffer keeps a first part of it.** -/
theorem prCatAll_kept (hmax : bufmax < 2 ^ 64) (hpos : 0 < bufmax) (texts : List CString) (h : Kept bufmax full s) :
    ∃ s', prCatAll bufmax texts s = some s' ∧ Kept bufmax (full ++ (texts.map (·.1)).flatten) s' := by
  induction texts generalizing full s with
  | nil => exact ⟨s, rfl, by simpa using h⟩
  | cons text texts ih =>
    obtain ⟨s', hs', hkept⟩ := h.prCat hmax hpos text
    obtain ⟨s'', hs'', hrest⟩ := ih hkept
    refine ⟨s'', ?_, ?_⟩
    · rw [prCatAll, hs', bind_some, hs'']
    · rwa [map_cons, flatten_cons, ← append_assoc]

theorem prCatAll_append (a b : List CString) (s : Mem QByte × ℕ) :
    prCatAll bufmax (a ++ b) s = (prCatAll bufmax a s).bind (prCatAll bufmax b) := by
  induction a generalizing s with
  | nil => rfl
  | cons text a ih =>
    rw [cons_append, prCatAll, prCatAll, bind_assoc]
    congr 1
    funext s
    exact ih s

/-- What is behind the text, where the last one that is appended is `text`: its terminator if all of it
fits, and else one of its characters. -/
theorem Kept.behind (h : Kept bufmax full (m, len)) (hmax : bufmax < 2 ^ 64) (hpos : 0 < bufmax)
    (htext : text.1 ≠ []) (hs : EntityDump.prCat bufmax text (m, len) = some s) :
    s.1 s.2 = 0 ↔ (full ++ text.1).length < bufmax := by
  have hlen : len = min full.length (bufmax - 1) := h.len
  have htaken : taken bufmax len text ≤ text.1.length := Nat.min_le_left _ _
  have hk : taken bufmax len text = min text.1.length (bufmax - 1 - len) := rfl
  have hpositive : 0 < text.1.length := length_pos_iff.2 htext
  have hfull : (full ++ text.1).length = full.length + text.1.length := length_append
  rw [prCat_eq hmax (h.lt hpos)] at hs
  cases hs
  change m.blit len _ (len + taken bufmax len text) = 0 ↔ _
  rw [hfull, Mem.blit_apply_add _ _ _ (by simp [htaken]), getElem_take]
  rcases Nat.lt_or_ge (taken bufmax len text) text.1.length with hcut | hall
  · rw [getElem_append_left hcut]
    constructor
    · intro hzero
      have hmem := getElem_mem (l := text.1) hcut
      rw [hzero] at hmem
      exact absurd hmem text.2
    · intro hfit
      omega
  · have hend : taken bufmax len text = text.1.length := by omega
    simp only [hend, getElem_append_right le_rfl, Nat.sub_self, getElem_singleton, true_iff]
    omega

/-- The buffer holds a string that is a first part of a text, and `len` is its length. -/
def Dumped (bufmax : ℕ) (full : List QByte) (s : Mem QByte × ℕ) : Prop :=
  ∃ str, s.1.Holds 0 str ∧ str.length < bufmax ∧ str <+: full ∧ s.2 = str.length

/-- A buffer whose text fits. -/
theorem Kept.dumped (h : Kept bufmax full s) (hzero : 0 ∉ full) (hfit : full.length < bufmax)
    (hend : s.1 s.2 = 0) : s.1.Holds 0 full ∧ s.2 = full.length := by
  have hlen : s.2 = full.length := by
    have := h.len
    omega
  have hslice := h.slice
  rw [hlen, take_length] at hslice
  rw [hlen] at hend
  exact ⟨Mem.holds_iff.2 ⟨hzero, hslice, by rwa [Nat.zero_add]⟩, hlen⟩

/-- A buffer whose text is cut off holds no string. -/
theorem Kept.not_holds (h : Kept bufmax full s) (hzero : 0 ∉ full)
    (hcut : bufmax ≤ full.length) (hend : s.1 s.2 ≠ 0) {str : List QByte} (hstr : s.1.Holds 0 str) :
    bufmax ≤ str.length := by
  have hlen := h.len
  have hslice := h.slice
  by_contra hlt
  have hterm := hstr.apply_length
  rw [Nat.zero_add] at hterm
  rcases Nat.lt_or_ge str.length s.2 with hin | hout
  · -- the terminator would be a character of the text
    have hchar : full[str.length]? = some 0 := by
      have hread : str.length < (s.1.slice 0 s.2).length := by rwa [Mem.length_slice]
      rw [← getElem?_take_of_lt hin, ← hslice, getElem?_eq_getElem hread, Mem.getElem_slice, Nat.zero_add, hterm]
    exact hzero (mem_of_getElem? hchar)
  · have hlast : str.length = s.2 := by omega
    exact hend (hlast ▸ hterm)

end Cat

section Dumps

variable {bufmax : ℕ} {buf : Mem QByte} {start : List QByte}

/-- The text behind `start`. -/
def textOf (texts : List CString) : List QByte := (texts.map (·.1)).flatten

theorem zero_notMem_textOf (texts : List CString) : 0 ∉ textOf texts := by
  simp only [textOf, List.mem_flatten, List.mem_map]
  rintro ⟨_, ⟨text, -, rfl⟩, h⟩
  exact text.2 h

/-- **What appending leaves in a buffer.** If all of the text fits, it is there, with its terminator. If
not, there is no terminator. -/
theorem prCatAll_cases (hmax : bufmax < 2 ^ 64) (hstart : start.length < bufmax) (hzero : 0 ∉ start)
    (hbuf : buf.slice 0 start.length = start) (texts : List CString) {last : CString} (hlast : last.1 ≠ []) :
    ∃ s, prCatAll bufmax (texts ++ [last]) (buf, start.length) = some s ∧
      ((start ++ textOf (texts ++ [last])).length < bufmax →
        s.1.Holds 0 (start ++ textOf (texts ++ [last])) ∧ s.2 = (start ++ textOf (texts ++ [last])).length) ∧
      (bufmax ≤ (start ++ textOf (texts ++ [last])).length → ∀ str, s.1.Holds 0 str → bufmax ≤ str.length) := by
  have hfull : start ++ textOf (texts ++ [last]) = start ++ textOf texts ++ last.1 := by simp [textOf]
  have hclean : 0 ∉ start ++ textOf texts ++ last.1 := by
    simp only [mem_append, not_or]
    exact ⟨⟨hzero, zero_notMem_textOf texts⟩, last.2⟩
  have h0 : Kept bufmax start (buf, start.length) :=
    ⟨by change start.length = _; omega, by change buf.slice 0 start.length = _; rw [hbuf, take_length]⟩
  obtain ⟨⟨m, len⟩, hs₁, h₁⟩ := prCatAll_kept hmax (by omega) texts h0
  obtain ⟨s₂, hs₂, h₂⟩ := h₁.prCat hmax (by omega) last
  have hbehind := h₁.behind hmax (by omega) hlast hs₂
  refine ⟨s₂, ?_, fun hfit => ?_, fun hcut str hstr => ?_⟩
  · rw [prCatAll_append, hs₁, bind_some, prCatAll, hs₂]
    rfl
  · rw [hfull] at hfit ⊢
    exact h₂.dumped hclean hfit (hbehind.2 hfit)
  · rw [hfull] at hcut
    exact h₂.not_holds hclean hcut (fun h => absurd (hbehind.1 h) (Nat.not_lt.2 hcut)) hstr

theorem prCatAll_dumped (hmax : bufmax < 2 ^ 64) (hstart : start.length < bufmax) (hzero : 0 ∉ start)
    (hbuf : buf.slice 0 start.length = start) (texts : List CString) {last : CString} (hlast : last.1 ≠ []) :
    ∃ s, prCatAll bufmax (texts ++ [last]) (buf, start.length) = some s ∧
      (Dumped bufmax (start ++ textOf (texts ++ [last])) s ↔
        (start ++ textOf (texts ++ [last])).length < bufmax) := by
  obtain ⟨s, hs, hfits, hcut⟩ := prCatAll_cases hmax hstart hzero hbuf texts hlast
  refine ⟨s, hs, ?_, fun hfit => ?_⟩
  · rintro ⟨str, hstr, hlt, -⟩
    by_contra hover
    exact absurd (hcut (Nat.not_lt.1 hover) str hstr) (Nat.not_le.2 hlt)
  · obtain ⟨hstr, hlen⟩ := hfits hfit
    exact ⟨_, hstr, hfit, prefix_rfl, hlen⟩

/-- The text of an entity. -/
def entityText (p : Instance) (fields : ℤ → BitVec 32) : List QByte := textOf (entityTexts p fields)

theorem entityTexts_eq (p : Instance) (fields : ℤ → BitVec 32) :
    entityTexts p fields = (openText :: fieldsTexts p fields p.field) ++ [closeText] := rfl

theorem entityText_ne_nil (p : Instance) (fields : ℤ → BitVec 32) : 0 < (entityText p fields).length := by
  rw [entityText, entityTexts, textOf, map_cons, flatten_cons, length_append]
  exact Nat.add_pos_left (by decide) _

/-- The fields that `PR_ValueString` adds to the text of a value. -/
def addedFields (p : Instance) (type : EType) (edict : BitVec 32) (verbose : Bool) : List QByte :=
  if type = .entity ∧ verbose ∧ edict.toNat < p.svNumEdicts then
    ((p.edict edict.toNat).map (entityText p)).getD []
  else []

theorem holds_qcSnprintfz (line : Mem QByte) (text : CString) :
    (qcSnprintfz line text).Holds 0 (text.1.take (lineSize - 1)) :=
  Mem.holds_blit line 0 fun h => text.2 (mem_of_mem_take h)

/-- The line of a value whose fields are added. -/
theorem prSaveEnt_line (p : Instance) (fields : ℤ → BitVec 32) (text : CString) (line : Mem QByte) :
    ∃ s, prSaveEnt p lineSize fields (qcSnprintfz line text, (qcSnprintfz line text).strlen lineSize 0) = some s ∧
      ((∃ len, Dumped lineSize (text.1 ++ entityText p fields) (s.1, len)) ↔
        (text.1 ++ entityText p fields).length < lineSize) := by
  have hholds := holds_qcSnprintfz line text
  have hlen : (text.1.take (lineSize - 1)).length < lineSize := by
    rw [length_take]
    exact Nat.lt_of_le_of_lt (Nat.min_le_left _ _) (by decide)
  obtain ⟨s, hs, hfits, hcut⟩ := prCatAll_cases (by decide) hlen hholds.zero_notMem hholds.chars
    (openText :: fieldsTexts p fields p.field) (show closeText.1 ≠ [] by decide)
  rw [← entityTexts_eq] at hs hfits hcut
  refine ⟨s, by rw [hholds.strlen hlen]; exact hs, ?_, fun hfit => ?_⟩
  · rintro ⟨len, str, hstr, hlt, -⟩
    by_contra hover
    refine absurd (hcut ?_ str hstr) (Nat.not_le.2 hlt)
    have hpos := entityText_ne_nil p fields
    change lineSize ≤ (text.1.take (lineSize - 1) ++ entityText p fields).length
    rw [length_append] at hover ⊢
    rw [length_take]
    omega
  · have hwhole : text.1.take (lineSize - 1) = text.1 := by
      rw [length_append] at hfit
      exact take_of_length_le (by omega)
    rw [hwhole] at hfits
    obtain ⟨hstr, -⟩ := hfits hfit
    exact ⟨(text.1 ++ entityText p fields).length, _, hstr, hfit, prefix_rfl, rfl⟩

/-- **Dumps of entities.** `PR_SaveEnt`, the fields that `PR_ValueString` adds, and any other texts that are
appended leave a string in the buffer, a first part of the text with its length, exactly if the whole text
fits. -/
theorem dumped_iff (p : Instance) :
    (∀ (bufmax : ℕ) (fields : ℤ → BitVec 32) (buf : Mem QByte) (start : List QByte), bufmax < 2 ^ 64 →
      start.length < bufmax → 0 ∉ start → buf.slice 0 start.length = start →
      ∃ s, prSaveEnt p bufmax fields (buf, start.length) = some s ∧
        (Dumped bufmax (start ++ entityText p fields) s ↔ (start ++ entityText p fields).length < bufmax)) ∧
    (∀ (type : EType) (edict : BitVec 32) (verbose : Bool) (text : CString) (line : Mem QByte),
      ∃ line', prValueString p type edict verbose text line = some line' ∧
        ((∃ len, Dumped lineSize (text.1 ++ addedFields p type edict verbose) (line', len)) ↔
          addedFields p type edict verbose = [] ∨
            (text.1 ++ addedFields p type edict verbose).length < lineSize)) ∧
    ∀ (bufmax : ℕ) (texts : List CString) (last : CString) (buf : Mem QByte) (start : List QByte),
      bufmax < 2 ^ 64 → start.length < bufmax → 0 ∉ start → buf.slice 0 start.length = start → last.1 ≠ [] →
      ∃ s, prCatAll bufmax (texts ++ [last]) (buf, start.length) = some s ∧
        (Dumped bufmax (start ++ textOf (texts ++ [last])) s ↔
          (start ++ textOf (texts ++ [last])).length < bufmax) := by
  refine ⟨fun bufmax fields buf start hmax hstart hzero hbuf => ?_, fun type edict verbose text line => ?_,
    fun bufmax texts last buf start hmax hstart hzero hbuf hlast =>
      prCatAll_dumped hmax hstart hzero hbuf texts hlast⟩
  · have hlast : closeText.1 ≠ [] := by decide
    exact prCatAll_dumped hmax hstart hzero hbuf (openText :: fieldsTexts p fields p.field) hlast
  · have plain {added : List QByte} (h : added = []) :
        (∃ len, Dumped lineSize (text.1 ++ added) (qcSnprintfz line text, len)) ↔
          added = [] ∨ (text.1 ++ added).length < lineSize := by
      have hholds := holds_qcSnprintfz line text
      refine ⟨fun _ => .inl h, fun _ => ⟨_, _, hholds, ?_, ?_, rfl⟩⟩
      · rw [List.length_take]
        exact Nat.lt_of_le_of_lt (Nat.min_le_left _ _) (by decide)
      · exact (List.take_prefix _ _).trans (List.prefix_append _ _)
    by_cases hentity : type = .entity ∧ verbose ∧ edict.toNat < p.svNumEdicts
    · cases hed : p.edict edict.toNat with
      | none =>
        have hnil : addedFields p type edict verbose = [] := by
          rw [addedFields, if_pos hentity, hed]
          rfl
        refine ⟨qcSnprintfz line text, ?_, plain hnil⟩
        simp only [prValueString, if_pos hentity, hed]
      | some fields =>
        have hadded : addedFields p type edict verbose = entityText p fields := by
          rw [addedFields, if_pos hentity, hed]
          rfl
        obtain ⟨s, hs, hiff⟩ := prSaveEnt_line p fields text line
        refine ⟨s.1, ?_, ?_⟩
        · simp only [prValueString, if_pos hentity, hed, hs, Option.map_some]
        · have hne : entityText p fields ≠ [] := List.length_pos_iff.1 (entityText_ne_nil p fields)
          rw [hadded, hiff]
          exact ⟨.inr, fun h => h.resolve_left hne⟩
    · have hnil : addedFields p type edict verbose = [] := by rw [addedFields, if_neg hentity]
      refine ⟨qcSnprintfz line text, ?_, plain hnil⟩
      simp only [prValueString, if_neg hentity]

/-- An instance without fields. -/
def noFields : Instance where
  field := []
  svNumEdicts := 1
  edict i := if i = 0 then some fun _ => 0 else none
  stringToNative _ := ⟨[], by decide⟩
  uglyValueString _ _ := ⟨[], by decide⟩

/-- Its entities are dumped to a buffer of five characters. -/
theorem dumped_noFields : ∃ s, prSaveEnt noFields 5 (fun _ => 0) (fun _ => 1, 0) = some s ∧
    Dumped 5 [0x7b, 0x0a, 0x7d, 0x0a] s := by
  obtain ⟨s, hs, hiff⟩ := (dumped_iff noFields).1 5 (fun _ => 0) (fun _ => 1) [] (by decide) (by decide)
    (by decide) rfl
  exact ⟨s, hs, hiff.2 (by decide)⟩

/-- A buffer of four characters gets no terminator. -/
theorem not_dumped_noFields : ¬∀ (p : Instance) (bufmax : ℕ) (fields : ℤ → BitVec 32) (buf : Mem QByte),
    1 ≤ bufmax → bufmax < 2 ^ 64 → ∃ s, prSaveEnt p bufmax fields (buf, 0) = some s ∧
      Dumped bufmax (entityText p fields) s := by
  intro h
  obtain ⟨s, hs, hdumped⟩ := h noFields 4 (fun _ => 0) (fun _ => 1) (by decide) (by decide)
  have hslice : Mem.slice (fun _ => (1 : QByte)) 0 ([] : List QByte).length = [] := rfl
  obtain ⟨s', hs', hiff⟩ := prCatAll_dumped (show 4 < 2 ^ 64 by decide) (by decide) List.not_mem_nil hslice
    [openText] (show closeText.1 ≠ [] by decide)
  cases hs.symm.trans hs'
  exact absurd (hiff.1 hdumped) (by decide)

end Dumps

end EntityDump

end FteQuake
