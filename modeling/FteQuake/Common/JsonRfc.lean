import FteQuake.Common.JsonComplete

/-!
# The JSON parser on RFC 8259 texts

The concrete syntax of RFC 8259 as a syntax tree: every value with the white space between its
tokens. `RfcValue.text` prints it, `RfcValue.node` is the tree of nodes it stands for, with every
scalar pointing at its literal, and `RfcValue.spaced` says whether some array has white space
between an element and the comma after it.

Main result: `jsonParse_rfc_iff`. `JSON_Parse` mirrors exactly the texts that are not spaced: the
element loop of `JSON_ParseNode` looks for the comma without skipping white space first, which the
member loop does.
-/

namespace FteQuake

open List

/-! ## Concrete syntax -/

/-- A run of white space. -/
def IsWs (w : List QByte) : Prop := ∀ c ∈ w, isWhite c = true

/-- A decimal digit. -/
def isDigit (c : QByte) : Bool := 0x30 ≤ c && c ≤ 0x39

/-- A number: sign, integer part, fraction, and exponent with its letter and sign. -/
structure RfcNumber where
  minus : Bool
  int : List QByte
  frac : Option (List QByte)
  exp : Option (QByte × Option QByte × List QByte)

/-- At least one digit, and nothing else. -/
def IsDigits (s : List QByte) : Prop := s ≠ [] ∧ ∀ c ∈ s, isDigit c = true

namespace RfcNumber

/-- The literal. -/
def text (n : RfcNumber) : List QByte :=
  (if n.minus then [0x2d] else []) ++ n.int ++ (n.frac.elim [] fun f => 0x2e :: f) ++
    n.exp.elim [] fun e => e.1 :: (e.2.1.toList ++ e.2.2)

/-- The grammar of numbers; an integer part of several digits does not start with 0. -/
structure Valid (n : RfcNumber) : Prop where
  int : IsDigits n.int
  leading : n.int.head? = some 0x30 → n.int = [0x30]
  frac : ∀ f, n.frac = some f → IsDigits f
  exp : ∀ c sign e, n.exp = some (c, sign, e) →
    (c = 0x65 ∨ c = 0x45) ∧ (∀ d, sign = some d → d = 0x2b ∨ d = 0x2d) ∧ IsDigits e

end RfcNumber

/-- `true`, `false` and `null`. -/
def trueWord : List QByte := [0x74, 0x72, 0x75, 0x65]
def falseWord : List QByte := [0x66, 0x61, 0x6c, 0x73, 0x65]
def nullWord : List QByte := [0x6e, 0x75, 0x6c, 0x6c]

mutual

/-- Values. -/
inductive RfcValue
  | string (body : List QByte)
  | number (n : RfcNumber)
  | true
  | false
  | null
  | emptyArray (w : List QByte)
  | array (es : RfcElements)
  | emptyObject (w : List QByte)
  | object (ms : RfcMembers)

/-- The elements of an array, each with the white space around it. -/
inductive RfcElements
  | last (w₁ : List QByte) (v : RfcValue) (w₂ : List QByte)
  | cons (w₁ : List QByte) (v : RfcValue) (w₂ : List QByte) (es : RfcElements)

/-- The members of an object: key, colon and value, with the white space around them. -/
inductive RfcMembers
  | last (w₁ key w₂ w₃ : List QByte) (v : RfcValue) (w₄ : List QByte)
  | cons (w₁ key w₂ w₃ : List QByte) (v : RfcValue) (w₄ : List QByte) (ms : RfcMembers)

end

mutual

/-- The text of a value. -/
def RfcValue.text : RfcValue → List QByte
  | .string body => quote :: body ++ [quote]
  | .number n => n.text
  | .true => trueWord
  | .false => falseWord
  | .null => nullWord
  | .emptyArray w => lbracket :: w ++ [rbracket]
  | .array es => lbracket :: es.text ++ [rbracket]
  | .emptyObject w => lbrace :: w ++ [rbrace]
  | .object ms => lbrace :: ms.text ++ [rbrace]

def RfcElements.text : RfcElements → List QByte
  | .last w₁ v w₂ => w₁ ++ v.text ++ w₂
  | .cons w₁ v w₂ es => w₁ ++ v.text ++ w₂ ++ comma :: es.text

def RfcMembers.text : RfcMembers → List QByte
  | .last w₁ key w₂ w₃ v w₄ => w₁ ++ quote :: key ++ quote :: w₂ ++ colon :: w₃ ++ v.text ++ w₄
  | .cons w₁ key w₂ w₃ v w₄ ms =>
    w₁ ++ quote :: key ++ quote :: w₂ ++ colon :: w₃ ++ v.text ++ w₄ ++ comma :: ms.text

end

mutual

/-- White space, strings and numbers are as RFC 8259 has them. -/
def RfcValue.Valid : RfcValue → Prop
  | .string body => rfcString body = Bool.true
  | .number n => n.Valid
  | .true | .false | .null => True
  | .emptyArray w | .emptyObject w => IsWs w
  | .array es => es.Valid
  | .object ms => ms.Valid

def RfcElements.Valid : RfcElements → Prop
  | .last w₁ v w₂ => IsWs w₁ ∧ v.Valid ∧ IsWs w₂
  | .cons w₁ v w₂ es => IsWs w₁ ∧ v.Valid ∧ IsWs w₂ ∧ es.Valid

def RfcMembers.Valid : RfcMembers → Prop
  | .last w₁ key w₂ w₃ v w₄ =>
    IsWs w₁ ∧ rfcString key = Bool.true ∧ IsWs w₂ ∧ IsWs w₃ ∧ v.Valid ∧ IsWs w₄
  | .cons w₁ key w₂ w₃ v w₄ ms =>
    IsWs w₁ ∧ rfcString key = Bool.true ∧ IsWs w₂ ∧ IsWs w₃ ∧ v.Valid ∧ IsWs w₄ ∧ ms.Valid

end

mutual

/-- Some array has white space between an element and the comma after it. -/
def RfcValue.spaced : RfcValue → Bool
  | .array es => es.spaced
  | .object ms => ms.spaced
  | _ => Bool.false

def RfcElements.spaced : RfcElements → Bool
  | .last _ v _ => v.spaced
  | .cons _ v w₂ es => v.spaced || !w₂.isEmpty || es.spaced

def RfcMembers.spaced : RfcMembers → Bool
  | .last _ _ _ _ v _ => v.spaced
  | .cons _ _ _ _ v _ ms => v.spaced || ms.spaced

end

mutual

/-- The node of a value under a name, with the text after it. A scalar points at its literal (a
string at what is between its quotes), an array has its elements under their indices, an object
its members under their keys. -/
def RfcValue.node (name after : List QByte) : RfcValue → JsonNode
  | .string body => .mk .string name (some (body ++ quote :: after, quote :: after)) []
  | .number n => .mk .number name (some (n.text ++ after, after)) []
  | .true => .mk .true name (some (trueWord ++ after, after)) []
  | .false => .mk .false name (some (falseWord ++ after, after)) []
  | .null => .mk .null name (some (nullWord ++ after, after)) []
  | .emptyArray _ => .mk .array name none []
  | .array es => .mk .array name none (es.nodes 0 (rbracket :: after))
  | .emptyObject _ => .mk .object name none []
  | .object ms => .mk .object name none (ms.nodes (rbrace :: after))

def RfcElements.nodes (idx : ℕ) (after : List QByte) : RfcElements → List JsonNode
  | .last _ v w₂ => [v.node (decimal idx) (w₂ ++ after)]
  | .cons _ v w₂ es =>
    v.node (decimal idx) (w₂ ++ comma :: es.text ++ after) :: es.nodes (idx + 1) after

def RfcMembers.nodes (after : List QByte) : RfcMembers → List JsonNode
  | .last _ key _ _ v w₄ => [v.node key (w₄ ++ after)]
  | .cons _ key _ _ v w₄ ms => v.node key (w₄ ++ comma :: ms.text ++ after) :: ms.nodes after

end

/-! ## Tokens -/

variable {s w : List QByte} {c : QByte}

theorem IsWs.skipWhite (hw : IsWs w) (s : List QByte) :
    jsonSkipWhite (w ++ s) = jsonSkipWhite s := by
  induction w with
  | nil => rfl
  | cons c w ih =>
    rw [cons_append, jsonSkipWhite_white (hw c mem_cons_self)]
    exact ih fun d hd => hw d (.tail c hd)

/-- White space before a token is skipped. -/
theorem IsWs.skipWhite_cons (hw : IsWs w) (s : List QByte)
    (h₁ : isWhite c = false) (h₂ : c ≠ slash) : jsonSkipWhite (w ++ c :: s) = c :: s := by
  rw [hw.skipWhite, jsonSkipWhite_cons h₁ h₂]

/-- What a value may be followed by: nothing, or a byte that ends an unquoted word. -/
def EndsWord (s : List QByte) : Prop := ∀ c, s.head? = some c → isDelimiter c = true

theorem IsWs.endsWord (hw : IsWs w) (hs : EndsWord s) :
    EndsWord (w ++ s) := by
  cases w with
  | nil => exact hs
  | cons c w =>
    intro d hd
    cases hd
    rw [isDelimiter, hw c mem_cons_self, Bool.true_or]

/-- A word in front of what ends it. -/
theorem scanWord_append {word : List QByte} (hw : ∀ c ∈ word, isDelimiter c = false)
    (hs : EndsWord s) : scanWord (word ++ s) = s := by
  rw [scanWord, dropWhile_append_of_pos fun c hc => by rw [hw c hc]; rfl]
  cases s with
  | nil => rfl
  | cons c s => exact dropWhile_cons_of_neg (by rw [hs c rfl]; exact Bool.false_ne_true)

theorem scanQuoted_cons (hq : c ≠ quote) (hb : c ≠ backslash) (hs : s ≠ []) : scanQuoted (c :: s) = scanQuoted s := by
  cases s with
  | nil => exact absurd rfl hs
  | cons d s => rw [scanQuoted, if_neg hq, if_neg fun h => hb h.1]

theorem scanQuoted_escape {d : QByte} (hd : isEscape d = true) :
    scanQuoted (backslash :: d :: s) = scanQuoted s := by
  rw [scanQuoted, if_neg (by decide), if_pos ⟨rfl, hd⟩]

theorem isHex_ne (h : rfcString.isHex c = true) : c ≠ quote ∧ c ≠ backslash := by
  constructor <;> rintro rfl <;> exact absurd h (by decide)

/-- The scan of an RFC 8259 string finds the quote that closes it. -/
theorem scanQuoted_rfcString {body : List QByte} (h : rfcString body = true) (s : List QByte) :
    scanQuoted (body ++ quote :: s) = quote :: s := by
  fun_induction rfcString body with
  | case1 =>
    cases s with
    | nil => rfl
    | cons d s => rw [nil_append, scanQuoted, if_pos rfl]
  | case2 => cases h
  | case3 => cases h
  | case4 a₁ a₂ a₃ a₄ t hctl ih =>
    simp only [Bool.and_eq_true] at h
    obtain ⟨⟨⟨⟨h₁, h₂⟩, h₃⟩, h₄⟩, ht⟩ := h
    simp only [cons_append]
    rw [scanQuoted_escape (by decide), scanQuoted_cons (isHex_ne h₁).1 (isHex_ne h₁).2 (by simp),
      scanQuoted_cons (isHex_ne h₂).1 (isHex_ne h₂).2 (by simp),
      scanQuoted_cons (isHex_ne h₃).1 (isHex_ne h₃).2 (by simp),
      scanQuoted_cons (isHex_ne h₄).1 (isHex_ne h₄).2 (by simp)]
    exact ih ht
  | case5 => cases h
  | case6 d t hd hctl ih =>
    rw [Bool.and_eq_true] at h
    simp only [cons_append]
    rw [scanQuoted_escape h.1]
    exact ih h.2
  | case7 c t hctl hb ih =>
    rw [not_or] at hctl
    rw [cons_append, scanQuoted_cons hctl.2 hb (by simp)]
    exact ih h

/-! ## The first byte of a value -/

/-- The bytes of a number literal. -/
def isNumberByte (c : QByte) : Bool :=
  isDigit c || c ∈ ([0x2b, 0x2d, 0x2e, 0x65, 0x45] : List QByte)

theorem isNumberByte_not_delimiter (h : isNumberByte c = true) :
    isDelimiter c = false := by
  revert c
  decide

theorem RfcNumber.Valid.mem_text {n : RfcNumber} (h : n.Valid) (hc : c ∈ n.text) :
    isNumberByte c = true := by
  have hdigits : ∀ {s}, IsDigits s → c ∈ s → isNumberByte c = true := by
    intro s hs hmem
    rw [isNumberByte, hs.2 c hmem, Bool.true_or]
  simp only [RfcNumber.text, mem_append] at hc
  rcases hc with ((hc | hc) | hc) | hc
  · split at hc
    · rw [mem_singleton.1 hc]
      decide
    · cases hc
  · exact hdigits h.int hc
  · cases hf : n.frac with
    | none => simp [hf] at hc
    | some f =>
      rw [hf] at hc
      rcases mem_cons.1 hc with rfl | hc
      · decide
      · exact hdigits (h.frac f hf) hc
  · cases he : n.exp with
    | none => simp [he] at hc
    | some e =>
      obtain ⟨l, sign, e⟩ := e
      obtain ⟨hl, hsign, hdig⟩ := h.exp l sign e he
      rw [he] at hc
      rcases mem_cons.1 hc with rfl | hc
      · rcases hl with rfl | rfl <;> decide
      · rcases mem_append.1 hc with hc | hc
        · cases sign with
          | none => cases hc
          | some d =>
            rw [mem_singleton.1 hc]
            rcases hsign d rfl with rfl | rfl <;> decide
        · exact hdigits hdig hc

/-- A number starts with its sign or a digit. -/
theorem RfcNumber.Valid.text_eq {n : RfcNumber} (h : n.Valid) :
    ∃ c t, n.text = c :: t ∧ (c = 0x2d ∨ isDigit c = true) := by
  obtain ⟨d, t, hd⟩ := exists_cons_of_ne_nil h.int.1
  unfold RfcNumber.text
  cases n.minus with
  | true => exact ⟨0x2d, _, rfl, Or.inl rfl⟩
  | false =>
    rw [hd]
    exact ⟨d, _, rfl, Or.inr (h.int.2 d (by rw [hd]; exact mem_cons_self))⟩

/-- The first bytes of values: no white space, comment or byte order mark starts with one. -/
def isValueStart (c : QByte) : Bool :=
  c = 0x2d || isDigit c || c ∈ ([quote, lbrace, lbracket, 0x74, 0x66, 0x6e] : List QByte)

theorem isValueStart_spec (h : isValueStart c = true) :
    isWhite c = false ∧ c ≠ slash ∧ c ≠ 0xef := by
  revert c
  decide

theorem RfcValue.Valid.text_eq {v : RfcValue} (h : v.Valid) :
    ∃ c t, v.text = c :: t ∧ isValueStart c = Bool.true := by
  cases v with
  | number n =>
    obtain ⟨c, t, e, hc⟩ := RfcNumber.Valid.text_eq h
    refine ⟨c, t, e, ?_⟩
    rcases hc with rfl | hc
    · decide
    · simp [isValueStart, hc]
  | _ => exact ⟨_, _, rfl, by decide⟩

/-- Skipping white space stops at a value. -/
theorem RfcValue.Valid.skipWhite {v : RfcValue} (h : v.Valid) (hw : IsWs w)
    (s : List QByte) : jsonSkipWhite (w ++ (v.text ++ s)) = v.text ++ s := by
  obtain ⟨c, t, e, hc⟩ := h.text_eq
  rw [e]
  exact hw.skipWhite_cons _ (isValueStart_spec hc).1 (isValueStart_spec hc).2.1

/-! ## The derivation of a text -/

theorem wordType_number {t : List QByte} (h : c = 0x2d ∨ isDigit c = true) :
    wordType (c :: t) = .number := by
  have hne : ∀ c : QByte, c = 0x2d ∨ isDigit c = true →
      (if 0x41 ≤ c ∧ c ≤ 0x5a then c + 0x20 else c) ∉ ([0x74, 0x66, 0x6e] : List QByte) := by
    decide
  have hc := hne c h
  simp only [mem_cons, not_or] at hc
  unfold wordType equalsNoCase
  simp only [map_cons, List.cons.injEq, hc.1, hc.2.1, hc.2.2.1, false_and, and_false,
    decide_false, Bool.false_eq_true, if_false]

/-- A word that ends before `after` is a scalar without defects. -/
theorem derives_word {word after name : List QByte} {type : JsonType} (hw : IsWs w)
    (hne : word ≠ []) (hword : ∀ c ∈ word, isDelimiter c = false) (hslash : word.head? ≠ some slash)
    (hquote : word.head? ≠ some quote) (htype : wordType word = type) (ha : EndsWord after) :
    Derives (.value false false name (w ++ (word ++ after))
      (.mk type name (some (word ++ after, after)) []) after) := by
  obtain ⟨c, t, rfl⟩ := exists_cons_of_ne_nil hne
  have hd := hword c (.head _)
  have hq : c ≠ quote := fun e => hquote (by rw [e]; rfl)
  have hs : jsonSkipWhite (w ++ (c :: t ++ after)) = c :: (t ++ after) := by
    apply hw.skipWhite_cons
    · rw [isDelimiter, Bool.or_eq_false_iff] at hd
      exact hd.1
    · exact fun e => hslash (by rw [e]; rfl)
  have hscan : scanWord (t ++ after) = after :=
    scanWord_append (fun d hd => hword d (.tail c hd)) ha
  have h := @Derives.word name _ _ _ hs hq hd
  rw [hscan, ← cons_append, between_append, htype] at h
  exact h

theorem EndsWord.cons (h : isDelimiter c = true) (s : List QByte) :
    EndsWord (c :: s) := by
  intro d hd
  cases hd
  exact h

theorem isWs_nil : IsWs [] := fun _ hc => absurd hc not_mem_nil

/-- Behind an element, the comma comes first if and only if there is no white space. -/
theorem IsWs.head_ne_comma (hw : IsWs w) (s : List QByte) :
    decide ((w ++ comma :: s).head? ≠ some comma) = !w.isEmpty := by
  cases w with
  | nil => simp
  | cons c w =>
    have hc : c ≠ comma := by
      rintro rfl
      exact absurd (hw comma (.head _)) (by decide)
    simp [hc]

/-- The key at the start of a member. -/
theorem jsonKey_rfc {key : List QByte} (h : rfcString key = true) (s : List QByte) :
    JsonKey false (quote :: (key ++ quote :: s)) key s where
  starts := ⟨_, rfl, scanQuoted_rfcString h s, (between_append key (quote :: s)).symm⟩
  defect_eq := by rw [h]; rfl

mutual

/-- **A value of RFC 8259 has a derivation of its node**, which is spaced if and only if the value
is. -/
theorem RfcValue.derives {v : RfcValue} (hv : v.Valid) (name : List QByte) {w after : List QByte}
    (hw : IsWs w) (ha : EndsWord after) :
    Derives (.value Bool.false v.spaced name (w ++ (v.text ++ after)) (v.node name after)
      after) := by
  match v with
  | .string body =>
    have hb : rfcString body = Bool.true := hv
    have hs : jsonSkipWhite (w ++ (RfcValue.text (.string body) ++ after)) = quote :: (body ++ quote :: after) := by
      rw [hv.skipWhite hw]
      simp [RfcValue.text]
    have h := @Derives.string name _ _ _ hs (scanQuoted_rfcString hb after)
    rw [between_append, hb] at h
    exact h
  | .number n =>
    have hn : n.Valid := hv
    obtain ⟨c, t, e', hc⟩ := hn.text_eq
    have e : RfcValue.text (.number n) = c :: t := e'
    apply derives_word hw
    · rw [e]
      exact cons_ne_nil c t
    · exact fun d hd => isNumberByte_not_delimiter (hn.mem_text hd)
    · rw [e]
      rintro ⟨⟩
      exact absurd hc (by decide)
    · rw [e]
      rintro ⟨⟩
      exact absurd hc (by decide)
    · rw [e]
      exact wordType_number hc
    · exact ha
  | .true =>
    exact derives_word hw (by decide) (by decide) (by decide) (by decide) (by decide) ha
  | .false =>
    exact derives_word hw (by decide) (by decide) (by decide) (by decide) (by decide) ha
  | .null =>
    exact derives_word hw (by decide) (by decide) (by decide) (by decide) (by decide) ha
  | .emptyArray w' =>
    have hs : jsonSkipWhite (w ++ (RfcValue.text (.emptyArray w') ++ after))
        = lbracket :: (w' ++ rbracket :: after) := by
      rw [hv.skipWhite hw]
      simp [RfcValue.text]
    apply Derives.array hs
    rw [IsWs.skipWhite_cons hv after (by decide) (by decide)]
    exact .noElements (Or.inr rfl)
  | .array es =>
    have hs : jsonSkipWhite (w ++ (RfcValue.text (.array es) ++ after))
        = lbracket :: (es.text ++ rbracket :: after) := by
      rw [hv.skipWhite hw]
      simp [RfcValue.text]
    exact .array hs (RfcElements.derives hv 0 after)
  | .emptyObject w' =>
    have hs : jsonSkipWhite (w ++ (RfcValue.text (.emptyObject w') ++ after)) = lbrace :: (w' ++ rbrace :: after) := by
      rw [hv.skipWhite hw]
      simp [RfcValue.text]
    apply Derives.object hs
    rw [IsWs.skipWhite_cons hv after (by decide) (by decide)]
    exact .noMembers (Or.inl rfl)
  | .object ms =>
    have hs : jsonSkipWhite (w ++ (RfcValue.text (.object ms) ++ after)) = lbrace :: (ms.text ++ rbrace :: after) := by
      rw [hv.skipWhite hw]
      simp [RfcValue.text]
    exact .object hs (RfcMembers.derives hv after)

theorem RfcElements.derives {es : RfcElements} (hes : es.Valid) (idx : ℕ) (after : List QByte) :
    Derives (.elements false es.spaced idx (jsonSkipWhite (es.text ++ rbracket :: after))
      (es.nodes idx (rbracket :: after)) (rbracket :: after)) := by
  match es with
  | .last w₁ v w₂ =>
    obtain ⟨hw₁, hv, hw₂⟩ := hes
    have hend : EndsWord (w₂ ++ rbracket :: after) := hw₂.endsWord (.cons (by decide) after)
    have hs : jsonSkipWhite (RfcElements.text (.last w₁ v w₂) ++ rbracket :: after)
        = v.text ++ (w₂ ++ rbracket :: after) := by
      rw [← hv.skipWhite hw₁]
      simp [RfcElements.text]
    rw [hs]
    exact .lastElement (RfcValue.derives hv (decimal idx) isWs_nil hend)
      (hw₂.skipWhite_cons after (by decide) (by decide)) (Or.inr rfl)
  | .cons w₁ v w₂ es =>
    obtain ⟨hw₁, hv, hw₂, hes⟩ := hes
    have hend : EndsWord (w₂ ++ comma :: (es.text ++ rbracket :: after)) :=
      hw₂.endsWord (.cons (by decide) _)
    have hs : jsonSkipWhite (RfcElements.text (.cons w₁ v w₂ es) ++ rbracket :: after)
        = v.text ++ (w₂ ++ comma :: (es.text ++ rbracket :: after)) := by
      rw [← hv.skipWhite hw₁]
      simp [RfcElements.text]
    have h := Derives.element (RfcValue.derives hv (decimal idx) isWs_nil hend)
      (hw₂.skipWhite_cons _ (by decide) (by decide)) (RfcElements.derives hes (idx + 1) after)
    rw [hw₂.head_ne_comma] at h
    rw [hs, RfcElements.nodes, RfcElements.spaced, append_assoc, cons_append]
    exact h

theorem RfcMembers.derives {ms : RfcMembers} (hms : ms.Valid) (after : List QByte) :
    Derives (.members false ms.spaced (jsonSkipWhite (ms.text ++ rbrace :: after))
      (ms.nodes (rbrace :: after)) (rbrace :: after)) := by
  match ms with
  | .last w₁ key w₂ w₃ v w₄ =>
    obtain ⟨hw₁, hkey, hw₂, hw₃, hv, hw₄⟩ := hms
    have hend : EndsWord (w₄ ++ rbrace :: after) := hw₄.endsWord (.cons (by decide) after)
    have htext : RfcMembers.text (.last w₁ key w₂ w₃ v w₄) ++ rbrace :: after
        = w₁ ++ quote :: (key ++ quote :: (w₂ ++ colon :: (w₃ ++ (v.text ++ (w₄ ++ rbrace :: after))))) := by
      simp [RfcMembers.text]
    rw [htext, hw₁.skipWhite_cons _ (by decide) (by decide)]
    exact .lastMember (jsonKey_rfc hkey _) (hw₂.skipWhite_cons _ (by decide) (by decide))
      (RfcValue.derives hv key hw₃ hend) (hw₄.skipWhite_cons after (by decide) (by decide))
      (Or.inl rfl)
  | .cons w₁ key w₂ w₃ v w₄ ms =>
    obtain ⟨hw₁, hkey, hw₂, hw₃, hv, hw₄, hms⟩ := hms
    have hend : EndsWord (w₄ ++ comma :: (ms.text ++ rbrace :: after)) :=
      hw₄.endsWord (.cons (by decide) _)
    have htext : RfcMembers.text (.cons w₁ key w₂ w₃ v w₄ ms) ++ rbrace :: after
        = w₁ ++ quote :: (key ++ quote :: (w₂ ++ colon :: (w₃ ++ (v.text ++
            (w₄ ++ comma :: (ms.text ++ rbrace :: after)))))) := by
      simp [RfcMembers.text]
    have h := Derives.member (jsonKey_rfc hkey _) (hw₂.skipWhite_cons _ (by decide) (by decide))
      (RfcValue.derives hv key hw₃ hend) (hw₄.skipWhite_cons _ (by decide) (by decide))
      (RfcMembers.derives hms after)
    rw [htext, hw₁.skipWhite_cons _ (by decide) (by decide), RfcMembers.nodes, RfcMembers.spaced,
      append_assoc, cons_append]
    exact h

end

/-! ## Whole texts -/

theorem skipByteOrderMark_eq {text : List QByte} (h : text.head? ≠ some 0xef) :
    skipByteOrderMark text = text := by
  unfold skipByteOrderMark
  rw [if_neg]
  intro e
  cases text with
  | nil => cases e
  | cons c text =>
    rw [take_succ_cons, List.cons.injEq] at e
    exact h (by rw [e.1]; rfl)

/-- A text of RFC 8259 is in the grammar of the parser. -/
theorem RfcValue.jsonText {v : RfcValue} (hv : v.Valid) {w₁ w₂ : List QByte} (h₁ : IsWs w₁) (h₂ : IsWs w₂) :
    JsonText Bool.false v.spaced (w₁ ++ (v.text ++ w₂)) (v.node [] w₂) := by
  have hend : EndsWord w₂ := by
    have h := h₂.endsWord (s := []) (fun c hc => by cases hc)
    rwa [append_nil] at h
  refine ⟨w₂, ?_, ?_⟩
  · rw [skipByteOrderMark_eq]
    · exact RfcValue.derives hv [] h₁ hend
    · cases w₁ with
      | nil =>
        obtain ⟨c, t, e, hc⟩ := hv.text_eq
        rw [e]
        rintro ⟨⟩
        exact (isValueStart_spec hc).2.2 rfl
      | cons c w =>
        rintro ⟨⟩
        exact absurd (h₁ 0xef (.head _)) (by decide)
  · have h := h₂.skipWhite []
    rwa [append_nil, jsonSkipWhite_nil] at h

/-- **`JSON_Parse` mirrors a text of RFC 8259 if and only if no array of it has white space
between an element and the comma after it.** -/
theorem jsonParse_rfc_iff (v : RfcValue) (hv : v.Valid) (w₁ w₂ : List QByte) (h₁ : IsWs w₁)
    (h₂ : IsWs w₂) :
    jsonParse (w₁ ++ (v.text ++ w₂)) = some (v.node [] w₂) ↔ v.spaced = false := by
  have ht := RfcValue.jsonText hv h₁ h₂
  cases hs : v.spaced with
  | true =>
    rw [hs] at ht
    rw [jsonParse_spaced ht]
    constructor
    · intro e
      cases e
    · intro e
      cases e
  | false =>
    rw [hs] at ht
    exact ⟨fun _ => rfl, fun _ => (jsonParse_eq_some_iff _ _).2 ⟨false, ht⟩⟩

/-- A number of one digit. -/
def digitNumber (c : QByte) : RfcValue := .number ⟨false, [c], none, none⟩

theorem digitNumber_valid {c : QByte} (h : isDigit c = true) : (digitNumber c).Valid where
  int := ⟨by simp, by simpa using h⟩
  leading := by simp
  frac := by simp
  exp := by simp

/-- `{"a":[1,{}]}` with a line feed at the end. -/
theorem jsonParse_nested :
    jsonParse ([] ++ ((RfcValue.object (.last [] [0x61] [] []
      (.array (.cons [] (digitNumber 0x31) [] (.last [] (.emptyObject []) []))) [])).text
        ++ [0x0a]))
      = some ((RfcValue.object (.last [] [0x61] [] []
        (.array (.cons [] (digitNumber 0x31) [] (.last [] (.emptyObject []) []))) [])).node []
          [0x0a]) := by
  have hnil := isWs_nil
  refine (jsonParse_rfc_iff _ ?_ [] [0x0a] hnil ?_).2 (by decide)
  · exact ⟨hnil, by decide, hnil, hnil,
      ⟨hnil, digitNumber_valid (by decide), hnil, hnil, hnil, hnil⟩, hnil⟩
  · intro c hc
    rw [List.mem_singleton.1 hc]
    decide

/-- `[1 ,2]` is refused. -/
theorem jsonParse_refuses_space :
    (RfcValue.array (.cons [] (digitNumber 0x31) [0x20]
      (.last [] (digitNumber 0x32) []))).Valid ∧
    jsonParse [lbracket, 0x31, 0x20, comma, 0x32, rbracket] = none := by
  have hv : (RfcValue.array (.cons [] (digitNumber 0x31) [0x20]
      (.last [] (digitNumber 0x32) []))).Valid :=
    ⟨isWs_nil, digitNumber_valid (by decide), fun c hc => by
      rw [List.mem_singleton.1 hc]
      decide, isWs_nil, digitNumber_valid (by decide), isWs_nil⟩
  exact ⟨hv, jsonParse_spaced (RfcValue.jsonText hv isWs_nil isWs_nil)⟩

end FteQuake
