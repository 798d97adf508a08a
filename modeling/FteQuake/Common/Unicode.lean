import FteQuake.Common.Utf8

/-!
# Characters of a string

`unicode_decode`, `unicode_encode` and the loops over the characters of a string in `common.c`:
`unicode_charcount`, `unicode_byteofsfromcharofs`, `unicode_charofsfrombyteofs`, `unicode_strtoupper` and
`unicode_strtolower`. The value of `com_parseutf8` and the C library's conversions of case are
parameters.

The loops stay in the string unless they come to a sequence of six bytes that is cut short
(`decodeLoops_inside_iff`). The conversions of case take the length of the last character for that of
all of them, in their result and in what they leave for the next one (`unicodeStrcase_iff`).
-/

namespace FteQuake

open List Option BitVec

namespace Utf8

/-! ## One character -/

/-- `ishexcode`. -/
def Ishexcode (x : QByte) : Prop :=
  (0x30 ≤ x ∧ x ≤ 0x39) ∨ (0x41 ≤ x ∧ x ≤ 0x46) ∨ (0x61 ≤ x ∧ x ≤ 0x66)

instance (x : QByte) : Decidable (Ishexcode x) := inferInstanceAs (Decidable (_ ∨ _))

/-- `dehex`. -/
def dehex (i : QByte) : BitVec 32 :=
  if 0x30 ≤ i ∧ i ≤ 0x39 then i.setWidth 32 - 0x30
  else if 0x41 ≤ i ∧ i ≤ 0x46 then i.setWidth 32 - 0x41 + 10
  else i.setWidth 32 - 0x61 + 10

/-- The hex digits of `^{`. -/
def hexRun (s : List QByte) : List QByte := (s.drop 2).takeWhile fun x => Ishexcode x

/-- `unicode_decode`, where `com_parseutf8.ival` is `parseutf8`. -/
def unicodeDecode (parseutf8 : ℤ) (markup : Bool) (s : List QByte) : Decoded :=
  let b := fun k => s.getD k 0
  if markup ∧ b 0 = 0x5e ∧ b 1 = 0x55 ∧ ∀ k < 4, Ishexcode (b (k + 2)) then
    ⟨dehex (b 2) <<< 12 ||| dehex (b 3) <<< 8 ||| dehex (b 4) <<< 4 ||| dehex (b 5), 0, 6⟩
  else if markup ∧ b 0 = 0x5e ∧ b 1 = 0x7b then
    let close := if b (2 + (hexRun s).length) = 0x7d then 1 else 0
    ⟨(hexRun s).foldl (fun code x => code <<< 4 ||| dehex x) 0, 0, 2 + (hexRun s).length + close⟩
  else if 0 < parseutf8 then utf8Decode s
  else if parseutf8 ≠ 0 then ⟨(b 0).setWidth 32, 0, 1⟩
  else
    let charcode := (b 0).setWidth 32
    let glyph := charcode ≠ 0 ∧ charcode ≠ 0x0a ∧ charcode ≠ 0x09 ∧ charcode ≠ 0x0d ∧
      (charcode < 0x20 ∨ 127 < charcode)
    ⟨if glyph then charcode ||| 0xe000 else charcode, 0, 1⟩

/-- `hex`. -/
def hexDigit (x : BitVec 32) : QByte :=
  let d := (x &&& 15).setWidth 8
  if d < 10 then 0x30 + d else 0x61 + (d - 10)

/-- The markup of a character that has no byte, for a `maxlen` that is an `int`. -/
def encodeMarkup (unicode maxlen : BitVec 32) : ℕ × List QByte :=
  if 0xffff < unicode then
    if maxlen.toInt < 11 then (0, [])
    else
      let digit := fun (least : BitVec 32) (shift : ℕ) =>
        if least < unicode then [hexDigit (unicode >>> shift)] else []
      let bytes := [0x5e, 0x7b] ++ digit 0xfffffff 28 ++ digit 0xffffff 24 ++ digit 0xfffff 20
        ++ digit 0xffff 16 ++ digit 0xfff 12 ++ digit 0xff 8 ++ digit 0xf 4 ++ digit 0 0 ++ [0x7d]
      (bytes.length, bytes)
  else if maxlen.toInt < 6 then (0, [])
  else
    (6, [0x5e, 0x55, hexDigit (unicode >>> 12), hexDigit (unicode >>> 8), hexDigit (unicode >>> 4),
      hexDigit unicode])

/-- An encoder of single bytes: those that `plain` says are written as they are. -/
def byteEncode (plain : BitVec 32 → Prop) [DecidablePred plain] (unicode maxlen : BitVec 32) (markup : Bool) :
    ℕ × List QByte :=
  if plain unicode then if maxlen.toInt < 1 then (0, []) else (1, [unicode.setWidth 8])
  else if markup = false then if maxlen.toInt < 1 then (0, []) else (1, [0x3f])
  else encodeMarkup unicode maxlen

/-- The characters that `qchar_encode` writes as bytes. -/
def QuakeChar (unicode : BitVec 32) : Prop :=
  ((32 ≤ unicode ∨ unicode = 0x0a ∨ unicode = 0x09 ∨ unicode = 0x0d) ∧ unicode < 128) ∨
    (0xe000 ≤ unicode ∧ unicode ≤ 0xe0ff ∧ unicode ≠ 0xe00a ∧ unicode ≠ 0xe009 ∧ unicode ≠ 0xe00d ∧
      unicode ≠ 0xe00b)

instance : DecidablePred QuakeChar := fun _ => inferInstanceAs (Decidable (_ ∨ _))

/-- The characters that `iso88591_encode` writes as bytes. -/
def LatinChar (unicode : BitVec 32) : Prop := unicode < 256 ∨ (0xe020 ≤ unicode ∧ unicode < 0xe080)

instance : DecidablePred LatinChar := fun _ => inferInstanceAs (Decidable (_ ∨ _))

/-- `qchar_encode`. -/
def qcharEncode : BitVec 32 → BitVec 32 → Bool → ℕ × List QByte := byteEncode QuakeChar

/-- `iso88591_encode`. -/
def iso88591Encode : BitVec 32 → BitVec 32 → Bool → ℕ × List QByte := byteEncode LatinChar

/-- `unicode_encode`, with so many rounds for the loop of `utf8_encode`. -/
def unicodeEncode (fuel : ℕ) (parseutf8 : ℤ) (unicode maxlen : BitVec 32) (markup : Bool) :
    Option (ℕ × List QByte) :=
  if 0 < parseutf8 then utf8Encode fuel unicode maxlen
  else if parseutf8 ≠ 0 then some (iso88591Encode unicode maxlen markup)
  else some (qcharEncode unicode maxlen markup)

section Decode

variable {parseutf8 : ℤ} {markup : Bool} {s : List QByte}

theorem Ishexcode.lt {k : ℕ} (h : Ishexcode (s.getD k 0)) : k < s.length := by
  by_contra hle
  rw [getD_eq_default _ _ (not_lt.mp hle)] at h
  exact absurd h (by decide)

theorem lt_of_getD_ne {k : ℕ} (h : s.getD k 0 ≠ 0) : k < s.length := by
  by_contra hle
  exact h (getD_eq_default _ _ (not_lt.mp hle))

theorem unicodeDecode_length_pos : 0 < (unicodeDecode parseutf8 markup s).length := by
  unfold unicodeDecode
  simp only
  split
  · exact (by decide : 0 < 6)
  split
  · exact Nat.add_pos_left (Nat.add_pos_left (by decide) _) _
  split
  · exact utf8Decode_length_pos s
  split <;> exact Nat.one_pos

/-- Where a character ends. -/
theorem unicodeDecode_length_le_iff (hs : s ≠ []) :
    (unicodeDecode parseutf8 markup s).length ≤ s.length ↔ ¬(0 < parseutf8 ∧ CutShort s) := by
  have hpos := length_pos_of_ne_nil hs
  have hcaret (h : s.getD 0 0 = 0x5e) : ¬(0 < parseutf8 ∧ CutShort s) := fun hcut => by
    have := hcut.2.2.1
    rw [h] at this
    exact absurd this (by decide)
  unfold unicodeDecode
  simp only
  split
  · rename_i h
    exact iff_of_true (h.2.2.2 3 (by decide)).lt (hcaret h.2.1)
  split
  · rename_i h
    refine iff_of_true ?_ (hcaret h.2.1)
    have htwo : 1 < s.length := lt_of_getD_ne (by rw [h.2.2]; decide)
    have hrun : (hexRun s).length ≤ s.length - 2 :=
      ( takeWhile_prefix _).length_le.trans (by rw [length_drop])
    split
    · rename_i hclose
      exact lt_of_getD_ne (by rw [hclose]; decide)
    · show 2 + (hexRun s).length + 0 ≤ s.length
      omega
  split
  · rename_i h
    rw [utf8Decode_length_le_iff hs]
    simp [h]
  · rename_i h
    refine iff_of_true ?_ fun hcut => h hcut.1
    split <;> exact hpos

end Decode

/-! ## Loops over a string -/

/-- The loop of `unicode_charcount`, from the place `p` on, for a buffer that ends at `last`; `none` when it
reads behind the terminator. -/
def charcountLoop (parseutf8 : ℤ) (markup : Bool) (s : List QByte) (last p chars : ℕ) : Option ℕ :=
  if p < last then
    if s.length < p then none
    else if p = s.length then some chars
    else
      let p' := p + (unicodeDecode parseutf8 markup (s.drop p)).length
      if last < p' then some chars else charcountLoop parseutf8 markup s last p' (chars + 1)
  else some chars
termination_by last - p
decreasing_by
  have := @unicodeDecode_length_pos parseutf8 markup (s.drop p)
  omega

/-- `unicode_charcount`. -/
def unicodeCharcount (parseutf8 : ℤ) (markup : Bool) (s : CString) (buffersize : ℕ) : Option ℕ :=
  charcountLoop parseutf8 markup s.1 buffersize 0 0

/-- `unicode_charofsfrombyteofs`. -/
def unicodeCharofsfrombyteofs (parseutf8 : ℤ) (markup : Bool) (s : CString) (byteofs : ℕ) : Option ℕ :=
  charcountLoop parseutf8 markup s.1 byteofs 0 0

/-- The loop of `unicode_byteofsfromcharofs`. -/
def byteofsLoop (parseutf8 : ℤ) (markup : Bool) (s : List QByte) (charofs p chars : ℕ) : Option ℕ :=
  if s.length < p then none
  else if p = s.length then some p
  else if charofs ≤ chars then some p
  else
    byteofsLoop parseutf8 markup s charofs (p + (unicodeDecode parseutf8 markup (s.drop p)).length) (chars + 1)
termination_by s.length - p
decreasing_by
  have := @unicodeDecode_length_pos parseutf8 markup (s.drop p)
  omega

/-- `unicode_byteofsfromcharofs`. -/
def unicodeByteofsfromcharofs (parseutf8 : ℤ) (markup : Bool) (s : CString) (charofs : ℕ) : Option ℕ :=
  byteofsLoop parseutf8 markup s.1 charofs 0 0

/-- The places that a loop over the characters comes to from a place, when it goes on until it is at the
terminator. -/
inductive Visits (parseutf8 : ℤ) (markup : Bool) (s : List QByte) : ℕ → ℕ → Prop
  | refl (p : ℕ) : Visits parseutf8 markup s p p
  | step {p q : ℕ} : p < s.length →
      Visits parseutf8 markup s (p + (unicodeDecode parseutf8 markup (s.drop p)).length) q →
      Visits parseutf8 markup s p q

/-- None of the characters from a place on is a sequence of six bytes that is cut short. -/
def NoneCut (parseutf8 : ℤ) (markup : Bool) (s : List QByte) (p : ℕ) : Prop :=
  ∀ q < s.length, Visits parseutf8 markup s p q → ¬(0 < parseutf8 ∧ CutShort (s.drop q))

section Loops

variable {parseutf8 : ℤ} {markup : Bool} {s : List QByte} {p q : ℕ}

theorem drop_ne_nil (h : p < s.length) : s.drop p ≠ [] := by
  rw [Ne, drop_eq_nil_iff]
  omega

namespace Visits

theorem le (h : Visits parseutf8 markup s p q) : p ≤ q := by
  induction h with
  | refl p => exact le_rfl
  | step _ _ ih => exact (Nat.le_add_right _ _).trans ih

theorem trans {r : ℕ} (h : Visits parseutf8 markup s p q) (hr : Visits parseutf8 markup s q r) :
    Visits parseutf8 markup s p r := by
  induction h with
  | refl p => exact hr
  | step hp _ ih => exact .step hp (ih hr)

/-- From the terminator on nothing else is visited. -/
theorem eq_of_le (hp : s.length ≤ p) (h : Visits parseutf8 markup s p q) : q = p := by
  cases h with
  | refl => rfl
  | step hlt _ => omega

theorem eq_or (h : Visits parseutf8 markup s p q) :
    q = p ∨ (p < s.length ∧
      Visits parseutf8 markup s (p + (unicodeDecode parseutf8 markup (s.drop p)).length) q) := by
  cases h with
  | refl => exact .inl rfl
  | step hp h => exact .inr ⟨hp, h⟩

end Visits

theorem NoneCut.next (h : NoneCut parseutf8 markup s p) (hp : p < s.length) :
    NoneCut parseutf8 markup s (p + (unicodeDecode parseutf8 markup (s.drop p)).length) :=
  fun q hq hvisits => h q hq (.step hp hvisits)

theorem NoneCut.next_le (h : NoneCut parseutf8 markup s p) (hp : p < s.length) :
    p + (unicodeDecode parseutf8 markup (s.drop p)).length ≤ s.length := by
  have hle := (@unicodeDecode_length_le_iff parseutf8 markup _ (drop_ne_nil hp)).mpr (h p hp (.refl p))
  rw [length_drop] at hle
  omega

/-- Where none is cut short, a walk from character to character ends at the terminator. -/
theorem NoneCut.visits {n : ℕ} (h : NoneCut parseutf8 markup s p) (hn : s.length - p = n) (hp : p ≤ s.length) :
    (∀ q, Visits parseutf8 markup s p q → q ≤ s.length) ∧ Visits parseutf8 markup s p s.length := by
  induction n using Nat.strong_induction_on generalizing p with
  | _ n ih =>
    rcases hp.eq_or_lt with rfl | hlt
    · exact ⟨fun q hq => (hq.eq_of_le le_rfl).le, .refl _⟩
    · have hpos := @unicodeDecode_length_pos parseutf8 markup (s.drop p)
      have hnext := h.next_le hlt
      obtain ⟨hinside, hend⟩ := ih _ (by omega) (h.next hlt) rfl hnext
      refine ⟨fun q hq => ?_, .step hlt hend⟩
      rcases hq.eq_or with rfl | ⟨-, hq⟩
      · exact hp
      · exact hinside q hq

/-- A walk that stays in the string meets none that is cut short. -/
theorem noneCut_iff (hp : p ≤ s.length) :
    NoneCut parseutf8 markup s p ↔ ∀ q, Visits parseutf8 markup s p q → q ≤ s.length := by
  refine ⟨fun h => (h.visits rfl hp).1, fun h q hq hvisits hcut => ?_⟩
  have hlong := mt (@unicodeDecode_length_le_iff parseutf8 markup _ (drop_ne_nil hq)).mp (not_not_intro hcut)
  have hle := h _ (hvisits.trans (.step hq (.refl _)))
  rw [length_drop] at hlong
  omega

theorem charcountLoop_none {last chars : ℕ} :
    charcountLoop parseutf8 markup s last p chars = none ↔
      ∃ q, Visits parseutf8 markup s p q ∧ s.length < q ∧ q < last := by
  induction hn : last - p using Nat.strong_induction_on generalizing p chars with
  | _ n ih =>
    rw [charcountLoop]
    have hpos := @unicodeDecode_length_pos parseutf8 markup (s.drop p)
    by_cases hlast : p < last
    · rw [if_pos hlast]
      by_cases hbehind : s.length < p
      · rw [if_pos hbehind]
        exact iff_of_true rfl ⟨p, .refl p, hbehind, hlast⟩
      rw [if_neg hbehind]
      by_cases hend : p = s.length
      · rw [if_pos hend]
        refine iff_of_false nofun fun ⟨q, hq, hlt, _⟩ => ?_
        have := hq.eq_of_le hend.ge
        omega
      rw [if_neg hend]
      have hstep : (∃ q, Visits parseutf8 markup s p q ∧ s.length < q ∧ q < last) ↔
          ∃ q, Visits parseutf8 markup s (p + (unicodeDecode parseutf8 markup (s.drop p)).length) q ∧
            s.length < q ∧ q < last := by
        refine exists_congr fun q => and_congr_left fun hq => ⟨fun h => ?_, .step (by omega)⟩
        rcases h.eq_or with rfl | ⟨-, h⟩
        · omega
        · exact h
      rw [hstep]
      simp only
      split
      · refine iff_of_false nofun fun ⟨q, hq, _, hlt⟩ => ?_
        have := hq.le
        omega
      · exact ih _ (by omega) rfl
    · rw [if_neg hlast]
      refine iff_of_false nofun fun ⟨q, hq, _, hlt⟩ => ?_
      have := hq.le
      omega

theorem byteofsLoop_none {chars : ℕ} :
    (∃ charofs > chars, byteofsLoop parseutf8 markup s charofs p chars = none) ↔
      ∃ q, Visits parseutf8 markup s p q ∧ s.length < q := by
  induction hn : s.length - p using Nat.strong_induction_on generalizing p chars with
  | _ n ih =>
    have hpos := @unicodeDecode_length_pos parseutf8 markup (s.drop p)
    by_cases hbehind : s.length < p
    · refine iff_of_true ⟨chars + 1, Nat.lt_succ_self _, ?_⟩ ⟨p, .refl p, hbehind⟩
      rw [byteofsLoop, if_pos hbehind]
    by_cases hend : p = s.length
    · refine iff_of_false (fun ⟨charofs, _, h⟩ => ?_) fun ⟨q, hq, hlt⟩ => ?_
      · rw [byteofsLoop, if_neg hbehind, if_pos hend] at h
        cases h
      · have := hq.eq_of_le hend.ge
        omega
    have hlt : p < s.length := by omega
    have hloop (charofs : ℕ) (h : chars < charofs) : byteofsLoop parseutf8 markup s charofs p chars =
        byteofsLoop parseutf8 markup s charofs (p + (unicodeDecode parseutf8 markup (s.drop p)).length)
          (chars + 1) := by
      rw [byteofsLoop, if_neg hbehind, if_neg hend, if_neg (not_le.mpr h)]
    have hih := @ih (s.length - (p + (unicodeDecode parseutf8 markup (s.drop p)).length)) (by omega)
      (p + (unicodeDecode parseutf8 markup (s.drop p)).length) (chars + 1) rfl
    constructor
    · rintro ⟨charofs, hcharofs, h⟩
      rw [hloop charofs hcharofs] at h
      by_cases hmore : chars + 1 < charofs
      · obtain ⟨q, hq, hlong⟩ := hih.mp ⟨charofs, hmore, h⟩
        exact ⟨q, .step hlt hq, hlong⟩
      · rw [byteofsLoop] at h
        by_cases hlong : s.length < p + (unicodeDecode parseutf8 markup (s.drop p)).length
        · exact ⟨_, .step hlt (.refl _), hlong⟩
        · rw [if_neg hlong, if_pos (not_lt.mp hmore), ite_self] at h
          cases h
    · rintro ⟨q, hq, hlong⟩
      rcases hq.eq_or with rfl | ⟨-, hq⟩
      · omega
      · obtain ⟨charofs, hmore, h⟩ := hih.mpr ⟨q, hq, hlong⟩
        exact ⟨charofs, by omega, (hloop charofs (by omega)).trans h⟩

/-- The UTF-8 branch of `COM_ParseFunString`: how far `str` goes, or `none` when the branch drops
through. -/
def parseFunStringUtf8 (utf8 : BitVec 32) (s : List QByte) : Option ℕ :=
  if s.getD 0 0 &&& 0x80 ≠ 0 ∧ 0 < utf8.toInt then
    if (utf8Decode s).error ≠ 0 ∧ utf8 &&& 2 = 0 then none else some (utf8Decode s).length
  else none

/-- **The decoder, the loops over the characters of a string and the UTF-8 branch of `COM_ParseFunString`
stay in the string if and only if they come to no sequence of six bytes that has the terminator in place
of its last byte.** -/
theorem decodeLoops_inside_iff (s : CString) :
    (∀ p < s.strlen, (p < p + (utf8Decode (s.1.drop p)).length ∧
        p + (utf8Decode (s.1.drop p)).length ≤ s.strlen ↔ ¬CutShort (s.1.drop p)) ∧
      ((∀ utf8 n, parseFunStringUtf8 utf8 (s.1.drop p) = some n → p < p + n ∧ p + n ≤ s.strlen) ↔
        ¬CutShort (s.1.drop p))) ∧
    ∀ parseutf8 markup,
      ((∀ q, Visits parseutf8 markup s.1 0 q → q ≤ s.strlen) ∧ Visits parseutf8 markup s.1 0 s.strlen ↔
        NoneCut parseutf8 markup s.1 0) ∧
      ((∀ buffersize, unicodeCharcount parseutf8 markup s buffersize ≠ none) ↔ NoneCut parseutf8 markup s.1 0) ∧
      ((∀ byteofs, unicodeCharofsfrombyteofs parseutf8 markup s byteofs ≠ none) ↔
        NoneCut parseutf8 markup s.1 0) ∧
      ((∀ charofs, unicodeByteofsfromcharofs parseutf8 markup s charofs ≠ none) ↔
        NoneCut parseutf8 markup s.1 0) := by
  refine ⟨fun p hp => ?_, fun parseutf8 markup => ?_⟩
  · have hdrop : (s.1.drop p).length = s.strlen - p := List.length_drop
    have hpos := utf8Decode_length_pos (s.1.drop p)
    have hplace : p < p + (utf8Decode (s.1.drop p)).length ∧ p + (utf8Decode (s.1.drop p)).length ≤ s.strlen ↔
        ¬CutShort (s.1.drop p) := by
      rw [← utf8Decode_length_le_iff (drop_ne_nil hp)]
      omega
    refine ⟨hplace, fun h hcut => ?_, fun hcut utf8 n h => ?_⟩
    · refine hplace.mp (h 2 _ ?_) hcut
      have hlead : (s.1.drop p).getD 0 0 &&& 0x80 ≠ 0 := fun hzero => by
        have hsix := hcut.2.1
        have hmask : (s.1.drop p).getD 0 0 &&& 0xfe &&& 0x80 = 0 := by
          rw [BitVec.and_assoc]
          exact hzero
        rw [hsix] at hmask
        exact absurd hmask (by decide)
      rw [parseFunStringUtf8, if_pos ⟨hlead, by decide⟩, if_neg fun h => absurd h.2 (by decide)]
    · unfold parseFunStringUtf8 at h
      split at h
      · split at h
        · cases h
        · cases h
          exact hplace.mpr hcut
      · cases h
  · have hnone := @noneCut_iff parseutf8 markup s.1 0 (Nat.zero_le _)
    have hcount : (∀ last, charcountLoop parseutf8 markup s.1 last 0 0 ≠ none) ↔
        NoneCut parseutf8 markup s.1 0 := by
      rw [hnone]
      refine ⟨fun h q hq => ?_, fun h last hloop => ?_⟩
      · by_contra hlong
        exact h (q + 1) (charcountLoop_none.mpr ⟨q, hq, not_le.mp hlong, Nat.lt_succ_self q⟩)
      · obtain ⟨q, hq, hlong, -⟩ := charcountLoop_none.mp hloop
        exact absurd (h q hq) (not_le.mpr hlong)
    refine ⟨⟨fun h => hnone.mpr h.1, fun h => h.visits rfl (Nat.zero_le _)⟩, hcount, hcount, ?_⟩
    rw [hnone]
    refine ⟨fun h q hq => ?_, fun h charofs hloop => ?_⟩
    · by_contra hlong
      obtain ⟨charofs, -, hloop⟩ := byteofsLoop_none.mpr ⟨q, hq, not_le.mp hlong⟩
      exact h charofs hloop
    · rcases charofs.eq_zero_or_pos with rfl | hpos
      · unfold unicodeByteofsfromcharofs at hloop
        rw [byteofsLoop, if_neg (Nat.not_lt_zero _), if_pos le_rfl, ite_self] at hloop
        cases hloop
      · obtain ⟨q, hq, hlong⟩ := byteofsLoop_none.mp ⟨charofs, hpos, hloop⟩
        exact absurd (h q hq) (not_le.mpr hlong)

/-- The decoder steps from the first byte of five over the terminator. -/
theorem utf8Decode_leaves : ¬∀ (s : CString) (p : ℕ), p < s.strlen →
    p < p + (utf8Decode (s.1.drop p)).length ∧ p + (utf8Decode (s.1.drop p)).length ≤ s.strlen := by
  intro h
  have hplace := (h ⟨[0xfc, 0x80, 0x80, 0x80, 0x80], by decide⟩ 0 (by decide)).2
  rw [List.drop_zero, Nat.zero_add] at hplace
  exact (utf8Decode_length_le_iff (List.cons_ne_nil _ _)).mp hplace (by decide)

end Loops

/-! ## Conversions of case -/

/-- The conversion of a character, with `towupper` or `towlower` for `tow`: the glyphs of the second half of
the Quake character set are converted within it. -/
def caseCode (tow : BitVec 32 → BitVec 32) (c : BitVec 32) : BitVec 32 :=
  if 0xe020 ≤ c ∧ c ≤ 0xe07f then tow (c &&& 0x7f) + (c &&& 0xff80) else tow c

/-- The loop of the two conversions, from the place `p` on, where `l` is the length of the character before
and `outsize` is less by the terminator. It gives `l` and what it writes; `none` when it reads behind the
terminator or an encoder does not return. -/
def strcaseLoop (fuel : ℕ) (tow : BitVec 32 → BitVec 32) (parseutf8 : ℤ) (markup : Bool) (s : List QByte)
    (outsize : BitVec 64) (p l : ℕ) : Option (ℕ × List QByte) :=
  if s.length < p then none
  else if p = s.length then some (l, [])
  else
    let r := unicodeDecode parseutf8 markup (s.drop p)
    let maxlen := (outsize - BitVec.ofNat 64 l).setWidth 32
    match unicodeEncode fuel parseutf8 (caseCode tow r.code) maxlen markup with
    | none => none
    | some w =>
      (strcaseLoop fuel tow parseutf8 markup s outsize (p + r.length) w.1).map fun v => (v.1, w.2 ++ v.2)
termination_by s.length - p
decreasing_by
  have := @unicodeDecode_length_pos parseutf8 markup (s.drop p)
  omega

/-- `unicode_strtoupper` and `unicode_strtolower`: what they return and what they write. -/
def unicodeStrcase (tow : BitVec 32 → BitVec 32) (fuel : ℕ) (parseutf8 : ℤ) (markup : Bool) (s : CString)
    (outsize : BitVec 64) : Option (ℕ × List QByte) :=
  (strcaseLoop fuel tow parseutf8 markup s.1 (outsize - 1) 0 0).map fun r => (r.1, r.2 ++ [0])

/-- `unicode_strtoupper`. -/
def unicodeStrtoupper (towupper : BitVec 32 → BitVec 32) :=
  unicodeStrcase towupper

/-- `unicode_strtolower`. -/
def unicodeStrtolower (towlower : BitVec 32 → BitVec 32) :=
  unicodeStrcase towlower

/-- `utf8_encode` returns on the code, where it is used. -/
def Encodable (parseutf8 : ℤ) (c : BitVec 32) : Prop := 0 < parseutf8 → c.toNat < 2 ^ 31

/-- The room that an encoder of single bytes asks for. -/
def byteRoom (plain : BitVec 32 → Prop) [DecidablePred plain] (c : BitVec 32) (markup : Bool) : ℤ :=
  if plain c ∨ markup = false then 1 else if 0xffff < c then 11 else 6

/-- There is no room for the character, as the encoder that is in use tests it. -/
def NoRoom (parseutf8 : ℤ) (markup : Bool) (c maxlen : BitVec 32) : Prop :=
  if 0 < parseutf8 then maxlen.toNat < byteCount c.toNat
  else if parseutf8 ≠ 0 then maxlen.toInt < byteRoom LatinChar c markup
  else maxlen.toInt < byteRoom QuakeChar c markup

section Encoders

variable {fuel : ℕ} {parseutf8 : ℤ} {markup : Bool} {c maxlen : BitVec 32} {r : ℕ × List QByte}

/-- What is written has the length that is returned, within the room, and is nothing where there is
none. -/
structure Fits (maxlen : BitVec 32) (noRoom : Prop) (r : ℕ × List QByte) : Prop where
  length : r.2.length = r.1
  le : r.1 ≤ maxlen.toNat
  zero : r.1 = 0 ↔ noRoom

theorem Fits.nothing {noRoom : Prop} (h : noRoom) : Fits maxlen noRoom (0, []) :=
  ⟨rfl, Nat.zero_le _, iff_of_true rfl h⟩

theorem Fits.written {bytes : List QByte} {room : ℤ} (hpos : 0 < bytes.length) (hle : bytes.length ≤ room)
    (h : ¬maxlen.toInt < room) : Fits maxlen (maxlen.toInt < room) (bytes.length, bytes) := by
  refine ⟨rfl, ?_, iff_of_false hpos.ne' h⟩
  have hint := toInt_eq_toNat_cond maxlen
  show bytes.length ≤ maxlen.toNat
  split at hint <;> omega

theorem encodeMarkup_fits :
    Fits maxlen (maxlen.toInt < if 0xffff < c then 11 else 6) (encodeMarkup c maxlen) := by
  unfold encodeMarkup
  by_cases hlong : 0xffff < c
  · rw [if_pos hlong, if_pos hlong]
    by_cases hroom : maxlen.toInt < 11
    · rw [if_pos hroom]
      exact .nothing hroom
    · rw [if_neg hroom]
      refine .written (by simp) ?_ hroom
      have hdigit (least : BitVec 32) (shift : ℕ) :
          (if least < c then [hexDigit (c >>> shift)] else []).length ≤ 1 := by
        split
        · exact le_rfl
        · exact Nat.zero_le _
      simp only [length_append, length_cons, length_nil]
      have := hdigit 0xfffffff 28
      have := hdigit 0xffffff 24
      have := hdigit 0xfffff 20
      have := hdigit 0xffff 16
      have := hdigit 0xfff 12
      have := hdigit 0xff 8
      have := hdigit 0xf 4
      have := hdigit 0 0
      omega
  · rw [if_neg hlong, if_neg hlong]
    by_cases hroom : maxlen.toInt < 6
    · rw [if_pos hroom]
      exact .nothing hroom
    · rw [if_neg hroom]
      exact @Fits.written _ [_, _, _, _, _, _] _ (by simp) (by simp) hroom

theorem byteEncode_fits {plain : BitVec 32 → Prop} [DecidablePred plain] :
    Fits maxlen (maxlen.toInt < byteRoom plain c markup) (byteEncode plain c maxlen markup) := by
  have hone (b : QByte) : Fits maxlen (maxlen.toInt < 1) (if maxlen.toInt < 1 then (0, []) else (1, [b])) := by
    by_cases hroom : maxlen.toInt < 1
    · rw [if_pos hroom]
      exact .nothing hroom
    · rw [if_neg hroom]
      exact @Fits.written _ [b] _ (by simp) (by simp) hroom
  unfold byteEncode byteRoom
  by_cases hplain : plain c
  · rw [if_pos hplain, if_pos (.inl hplain)]
    exact hone _
  rw [if_neg hplain]
  by_cases hmarkup : markup = false
  · rw [if_pos hmarkup, if_pos (.inr hmarkup)]
    exact hone _
  rw [if_neg hmarkup, if_neg (by simp [hplain, hmarkup])]
  exact encodeMarkup_fits

theorem unicodeEncode_fits (h : unicodeEncode fuel parseutf8 c maxlen markup = some r) :
    Encodable parseutf8 c ∧ Fits maxlen (NoRoom parseutf8 markup c maxlen) r := by
  unfold unicodeEncode at h
  unfold NoRoom Encodable
  by_cases hutf8 : 0 < parseutf8
  · rw [if_pos hutf8] at h
    obtain ⟨hcode, rfl⟩ := utf8Encode_some h
    rw [if_pos hutf8]
    refine ⟨fun _ => hcode, ?_⟩
    by_cases hroom : maxlen.toNat < byteCount c.toNat
    · rw [if_pos hroom]
      exact .nothing hroom
    · rw [if_neg hroom]
      have hpos := byteCount_pos c.toNat
      exact ⟨length_encodeBytes c hpos, not_lt.mp hroom, iff_of_false hpos.ne' hroom⟩
  rw [if_neg hutf8] at h ⊢
  refine ⟨fun hpos => absurd hpos hutf8, ?_⟩
  by_cases hlatin : parseutf8 ≠ 0
  · rw [if_pos hlatin] at h ⊢
    cases h
    exact byteEncode_fits
  · rw [if_neg hlatin] at h ⊢
    cases h
    exact byteEncode_fits

theorem unicodeEncode_returns (h : Encodable parseutf8 c) :
    ∃ r, unicodeEncode 6 parseutf8 c maxlen markup = some r := by
  unfold unicodeEncode
  by_cases hutf8 : 0 < parseutf8
  · rw [if_pos hutf8]
    exact ⟨_, utf8Encode_eq (h hutf8)⟩
  · rw [if_neg hutf8, ← apply_ite some]
    exact ⟨_, rfl⟩

end Encoders

section Strcase

variable {fuel : ℕ} {tow : BitVec 32 → BitVec 32} {parseutf8 : ℤ} {markup : Bool} {s : List QByte}
  {outsize : BitVec 64} {p l : ℕ} {v : ℕ × List QByte}

/-- The code that is written for the character at a place. -/
def caseAt (tow : BitVec 32 → BitVec 32) (parseutf8 : ℤ) (markup : Bool) (s : List QByte) (q : ℕ) : BitVec 32 :=
  caseCode tow (unicodeDecode parseutf8 markup (s.drop q)).code

/-- The condition of the conversions, from a place on: the characters are in the string, their codes have
an encoding, and there is no room for any of them but the last. -/
structure OnlyLast (tow : BitVec 32 → BitVec 32) (parseutf8 : ℤ) (markup : Bool) (s : List QByte)
    (outsize : BitVec 64) (p : ℕ) : Prop where
  noneCut : NoneCut parseutf8 markup s p
  encodable : ∀ q < s.length, Visits parseutf8 markup s p q → Encodable parseutf8 (caseAt tow parseutf8 markup s q)
  noRoom : ∀ q, Visits parseutf8 markup s p q → q < s.length →
    q + (unicodeDecode parseutf8 markup (s.drop q)).length < s.length →
    NoRoom parseutf8 markup (caseAt tow parseutf8 markup s q) ((outsize - 1).setWidth 32)

/-- A round of the loop. -/
theorem strcaseLoop_round (hp : p < s.length) (h : strcaseLoop fuel tow parseutf8 markup s outsize p l = some v) :
    ∃ w u, unicodeEncode fuel parseutf8 (caseAt tow parseutf8 markup s p)
        ((outsize - BitVec.ofNat 64 l).setWidth 32) markup = some w ∧
      strcaseLoop fuel tow parseutf8 markup s outsize
        (p + (unicodeDecode parseutf8 markup (s.drop p)).length) w.1 = some u ∧ v = (u.1, w.2 ++ u.2) := by
  rw [strcaseLoop, if_neg (by omega), if_neg (by omega)] at h
  simp only at h
  split at h
  · cases h
  · rename_i w hw
    obtain ⟨u, hu, rfl⟩ := map_eq_some_iff.mp h
    exact ⟨w, u, hw, hu, rfl⟩

theorem strcaseLoop_step {w : ℕ × List QByte} (hp : p < s.length)
    (hw : unicodeEncode fuel parseutf8 (caseAt tow parseutf8 markup s p)
      ((outsize - BitVec.ofNat 64 l).setWidth 32) markup = some w) :
    strcaseLoop fuel tow parseutf8 markup s outsize p l = (strcaseLoop fuel tow parseutf8 markup s outsize
      (p + (unicodeDecode parseutf8 markup (s.drop p)).length) w.1).map fun v => (v.1, w.2 ++ v.2) := by
  rw [caseAt] at hw
  rw [strcaseLoop, if_neg (by omega), if_neg hp.ne]
  simp only
  rw [hw]

theorem strcaseLoop_end : strcaseLoop fuel tow parseutf8 markup s outsize s.length l = some (l, []) := by
  rw [strcaseLoop, if_neg (lt_irrefl _), if_pos rfl]

/-- The result is the length of the last character. -/
theorem strcaseLoop_last {n : ℕ} (hn : s.length - p = n) (hp : p < s.length)
    (h : strcaseLoop fuel tow parseutf8 markup s outsize p l = some v) : v.1 ≤ v.2.length := by
  induction n using Nat.strong_induction_on generalizing p l v with
  | _ n ih =>
    obtain ⟨w, u, hw, hu, rfl⟩ := strcaseLoop_round hp h
    have hpos := @unicodeDecode_length_pos parseutf8 markup (s.drop p)
    rw [length_append]
    by_cases hnext : p + (unicodeDecode parseutf8 markup (s.drop p)).length < s.length
    · exact (ih _ (by omega) rfl hnext hu).trans (Nat.le_add_left _ _)
    · rw [strcaseLoop] at hu
      split at hu
      · cases hu
      · rw [if_pos (by omega)] at hu
        cases hu
        exact (unicodeEncode_fits hw).2.length.ge.trans (Nat.le_add_right _ _)

/-- A result that counts all that was written. -/
theorem strcaseLoop_exact {n : ℕ} (hn : s.length - p = n) (hp : p ≤ s.length)
    (h : strcaseLoop fuel tow parseutf8 markup s (outsize - 1) p 0 = some v) (hv : v.1 = v.2.length) :
    OnlyLast tow parseutf8 markup s outsize p := by
  induction n using Nat.strong_induction_on generalizing p v with
  | _ n ih =>
    rcases hp.eq_or_lt with rfl | hlt
    · refine ⟨fun q hq hvisits => ?_, fun q hq hvisits => ?_, fun q hvisits hq => ?_⟩
      all_goals exact absurd (hvisits.eq_of_le le_rfl) hq.ne
    obtain ⟨w, u, hw, hu, rfl⟩ := strcaseLoop_round hlt h
    obtain ⟨hcode, hfits⟩ := unicodeEncode_fits hw
    have hpos := @unicodeDecode_length_pos parseutf8 markup (s.drop p)
    have hnext : p + (unicodeDecode parseutf8 markup (s.drop p)).length ≤ s.length := by
      by_contra hlong
      rw [strcaseLoop, if_pos (not_le.mp hlong)] at hu
      cases hu
    have hcut : ¬(0 < parseutf8 ∧ CutShort (s.drop p)) := by
      rw [← @unicodeDecode_length_le_iff parseutf8 markup _ (drop_ne_nil hlt), length_drop]
      omega
    rw [length_append] at hv
    simp only at hv
    -- behind the last character there is nothing, and one that is not the last was not written
    have hrest : (p + (unicodeDecode parseutf8 markup (s.drop p)).length < s.length → w.1 = 0) ∧
        OnlyLast tow parseutf8 markup s outsize (p + (unicodeDecode parseutf8 markup (s.drop p)).length) := by
      rcases hnext.eq_or_lt with heq | hinside
      · refine ⟨fun h => absurd heq h.ne, ⟨fun q hq hvisits => ?_, fun q hq hvisits => ?_,
          fun q hvisits hq => ?_⟩⟩
        all_goals
          have := hvisits.eq_of_le heq.ge
          omega
      · have hlast := strcaseLoop_last rfl hinside hu
        have hzero : w.2.length = 0 := by omega
        have hnothing : w.1 = 0 := by rw [← hfits.length, hzero]
        rw [hnothing] at hu
        exact ⟨fun _ => hnothing, ih _ (by omega) rfl hnext hu (by omega)⟩
    have hfirst := hfits.zero.mp
    rw [BitVec.ofNat_eq_ofNat, BitVec.sub_zero] at hfirst
    refine ⟨fun q hq hvisits => ?_, fun q hq hvisits => ?_, fun q hvisits hq hinside => ?_⟩
    · rcases hvisits.eq_or with rfl | ⟨-, hvisits⟩
      · exact hcut
      · exact hrest.2.noneCut q hq hvisits
    · rcases hvisits.eq_or with rfl | ⟨-, hvisits⟩
      · exact hcode
      · exact hrest.2.encodable q hq hvisits
    · rcases hvisits.eq_or with rfl | ⟨-, hvisits⟩
      · exact hfirst (hrest.1 hinside)
      · exact hrest.2.noRoom q hvisits hq hinside

theorem OnlyLast.next (h : OnlyLast tow parseutf8 markup s outsize p) (hp : p < s.length) :
    OnlyLast tow parseutf8 markup s outsize (p + (unicodeDecode parseutf8 markup (s.drop p)).length) :=
  ⟨h.noneCut.next hp, fun q hq hvisits => h.encodable q hq (.step hp hvisits),
    fun q hvisits => h.noRoom q (.step hp hvisits)⟩

/-- Where only the last character is written, it is counted and fits. -/
theorem OnlyLast.returns {n : ℕ} (h : OnlyLast tow parseutf8 markup s outsize p) (hn : s.length - p = n)
    (hp : p ≤ s.length) :
    ∃ v, strcaseLoop 6 tow parseutf8 markup s (outsize - 1) p 0 = some v ∧ v.1 = v.2.length ∧
      v.2.length ≤ (outsize - 1).toNat := by
  induction n using Nat.strong_induction_on generalizing p with
  | _ n ih =>
    rcases hp.eq_or_lt with rfl | hlt
    · exact ⟨_, strcaseLoop_end, rfl, Nat.zero_le _⟩
    have hpos := @unicodeDecode_length_pos parseutf8 markup (s.drop p)
    have hnext := h.noneCut.next_le hlt
    obtain ⟨w, hw⟩ := @unicodeEncode_returns parseutf8 markup _ ((outsize - 1).setWidth 32)
      (h.encodable p hlt (.refl p))
    have hfits := (unicodeEncode_fits hw).2
    have hloop := @strcaseLoop_step 6 tow parseutf8 markup s (outsize - 1) p 0 w hlt
      (by rw [BitVec.ofNat_eq_ofNat, BitVec.sub_zero]; exact hw)
    rcases hnext.eq_or_lt with heq | hinside
    · rw [hloop, heq, strcaseLoop_end]
      refine ⟨(w.1, w.2), by simp, hfits.length.symm, ?_⟩
      · refine hfits.length.le.trans (hfits.le.trans ?_)
        rw [toNat_setWidth]
        exact Nat.mod_le _ _
    · have hnothing : w.1 = 0 := hfits.zero.mpr (h.noRoom p (.refl p) hlt hinside)
      have hempty : w.2 = [] := eq_nil_of_length_eq_zero (hfits.length.trans hnothing)
      rw [hloop, hnothing, hempty]
      obtain ⟨v, hv, hexact, hle⟩ := ih _ (by omega) (h.next hlt) rfl hnext
      exact ⟨v, by rw [hv]; rfl, hexact, hle⟩

/-- What one of the conversions must do with a string: return, write no more than `outsize` bytes, and count
them but for the terminator. -/
def CaseInside (strcase : ℕ → ℤ → Bool → CString → BitVec 64 → Option (ℕ × List QByte)) (parseutf8 : ℤ)
    (markup : Bool) (s : CString) (outsize : BitVec 64) : Prop :=
  ∃ fuel l bytes, strcase fuel parseutf8 markup s outsize = some (l, bytes ++ [0]) ∧
    (bytes ++ [0]).length ≤ outsize.toNat ∧ l = bytes.length

theorem caseInside_iff {s : CString} (hsize : outsize ≠ 0) :
    CaseInside (unicodeStrcase tow) parseutf8 markup s outsize ↔ OnlyLast tow parseutf8 markup s.1 outsize 0 := by
  have hsize' : (outsize - 1).toNat + 1 = outsize.toNat := by bv_omega
  constructor
  · rintro ⟨fuel, l, bytes, h, -, rfl⟩
    obtain ⟨v, hv, heq⟩ := map_eq_some_iff.mp h
    obtain ⟨hl, hbytes⟩ := Prod.mk.inj heq
    rw [append_cancel_right_eq] at hbytes
    exact strcaseLoop_exact rfl (Nat.zero_le _) hv (by rw [hl, hbytes])
  · intro h
    obtain ⟨v, hv, hexact, hle⟩ := h.returns rfl (Nat.zero_le _)
    refine ⟨6, v.1, v.2, by rw [unicodeStrcase, hv]; rfl, ?_, hexact⟩
    rw [length_append, length_singleton]
    omega

end Strcase

end Utf8

end FteQuake
