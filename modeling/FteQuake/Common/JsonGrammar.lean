import FteQuake.Common.Json

/-!
# What the JSON parser accepts

`Derives` is the language of `JSON_ParseNode` as a grammar that does not mention the parser. It is
the grammar of JSON with the extensions the parser means to have (comments, unquoted words,
trailing commas) and with the slips it does not: a key without a colon, a value that is missing,
an array or object that is still open where the bracket of the one around it closes. Each
derivation says whether it has a `defect` (a slip, or a quoted string that RFC 8259 does not
allow) and whether it is `spaced` (an array has white space before a comma, where the parser gives
up).
-/

namespace FteQuake

/-! ## Tokens -/

/-- The closing brackets. -/
def IsCloser (c : QByte) : Prop := c = rbrace ∨ c = rbracket

variable {s : List QByte} {c : QByte} {fuel : ℕ}

theorem jsonSkipWhite_cons (hw : isWhite c = false) (hs : c ≠ slash) :
    jsonSkipWhite (c :: s) = c :: s := by
  rw [jsonSkipWhite.eq_def]
  simp [hw, if_neg hs]

theorem jsonSkipWhite_white (hw : isWhite c = true) :
    jsonSkipWhite (c :: s) = jsonSkipWhite s := by
  rw [jsonSkipWhite.eq_def]
  simp only [if_pos hw]

@[simp] theorem jsonSkipWhite_nil : jsonSkipWhite [] = [] := by rw [jsonSkipWhite]

theorem IsCloser.skipWhite (h : IsCloser c) (s : List QByte) :
    jsonSkipWhite (c :: s) = c :: s := by
  rcases h with rfl | rfl <;> exact jsonSkipWhite_cons (by decide) (by decide)

@[simp] theorem jsonSkipWhite_quote (s : List QByte) : jsonSkipWhite (quote :: s) = quote :: s :=
  jsonSkipWhite_cons (by decide) (by decide)

/-- Skipping white space leaves none to skip. -/
@[simp] theorem jsonSkipWhite_idem (s : List QByte) :
    jsonSkipWhite (jsonSkipWhite s) = jsonSkipWhite s := by
  fun_induction jsonSkipWhite s with
  | case1 => rw [jsonSkipWhite]
  | case2 c s hw ih => exact ih
  | case3 hw =>
    rw [jsonSkipWhite.eq_def]
    simp only [if_neg hw, if_true]
  | case4 s hw ih => exact ih
  | case5 s hd hw ih => exact ih
  | case6 d s hd hd' hw =>
    rw [jsonSkipWhite.eq_def]
    simp only [if_neg hw, if_true, if_neg hd, if_neg hd']
  | case7 c s hw hc => exact jsonSkipWhite_cons (by simpa using hw) hc

theorem length_jsonSkipWhite_le (s : List QByte) : (jsonSkipWhite s).length ≤ s.length := by
  fun_induction jsonSkipWhite s with
  | case1 => exact le_rfl
  | case2 c s hw ih => exact ih.trans (Nat.le_succ _)
  | case3 => exact le_rfl
  | case4 s hw ih =>
    have := length_skipLine_le s
    simp only [List.length_cons]
    omega
  | case5 s hd hw ih =>
    have := length_skipBlock_le s
    simp only [List.length_cons]
    omega
  | case6 => exact le_rfl
  | case7 => exact le_rfl

/-- The scan of a quoted string stops at a quote or at the end. -/
theorem scanQuoted_cases (s : List QByte) : scanQuoted s = [] ∨ ∃ r, scanQuoted s = quote :: r := by
  fun_induction scanQuoted s with
  | case1 => exact Or.inl rfl
  | case2 => exact Or.inr ⟨[], rfl⟩
  | case3 => exact Or.inl rfl
  | case4 d s => exact Or.inr ⟨_, rfl⟩
  | case5 c d s h h' ih => exact ih
  | case6 c d s h h' ih => exact ih

theorem length_scanQuoted_le (s : List QByte) : (scanQuoted s).length ≤ s.length := by
  fun_induction scanQuoted s with
  | case1 => exact le_rfl
  | case2 => exact le_rfl
  | case3 => exact Nat.zero_le _
  | case4 => exact le_rfl
  | case5 c d s h h' ih =>
    simp only [List.length_cons]
    omega
  | case6 c d s h h' ih => exact ih.trans (Nat.le_succ _)

theorem length_scanWord_le (s : List QByte) : (scanWord s).length ≤ s.length :=
  List.length_dropWhile_le _ s

theorem jsonParseString_quote {r : List QByte} (h : scanQuoted s = quote :: r) :
    jsonParseString (quote :: s) = (some (s, quote :: r), r) := by
  rw [jsonParseString, List.head?_cons, if_pos rfl, List.tail_cons, h]

theorem jsonParseString_word (hq : c ≠ quote) (hd : isDelimiter c = false) :
    jsonParseString (c :: s) = (some (c :: s, scanWord s), scanWord s) := by
  have hw : scanWord (c :: s) = scanWord s := by
    rw [scanWord, List.dropWhile_cons_of_pos (by rw [hd]; rfl), scanWord]
  have hlen := length_scanWord_le s
  rw [jsonParseString, List.head?_cons, if_neg (fun e => hq (Option.some.inj e)), hw,
    if_neg (by rw [List.length_cons]; omega)]

/-- What `JSON_ParseString` returns on a quoted string. -/
theorem jsonParseString_quote_cases (s : List QByte) :
    jsonParseString (quote :: s) = (none, []) ∨
      ∃ r, scanQuoted s = quote :: r ∧ jsonParseString (quote :: s) = (some (s, quote :: r), r) := by
  rcases scanQuoted_cases s with h | ⟨r, h⟩
  · refine Or.inl ?_
    rw [jsonParseString, List.head?_cons, if_pos rfl, List.tail_cons, h]
  · exact Or.inr ⟨r, h, jsonParseString_quote h⟩

theorem jsonParseString_delimiter (hd : isDelimiter c = true) :
    jsonParseString (c :: s) = (none, c :: s) := by
  have hq : c ≠ quote := by
    rintro rfl
    exact absurd hd (by decide)
  have hw : scanWord (c :: s) = c :: s := by
    rw [scanWord, List.dropWhile_cons_of_neg (by simp [hd])]
  rw [jsonParseString, List.head?_cons, if_neg (fun e => hq (Option.some.inj e)), hw, if_pos rfl]

/-! ## The grammar -/

/-- The body of a quoted string by RFC 8259: no control characters, and behind a backslash one of
the eight letters or `u` and four hexadecimal digits. -/
def rfcString : List QByte → Bool
  | [] => true
  | c :: s =>
    if c < 0x20 ∨ c = quote then false
    else if c = backslash then
      match s with
      | [] => false
      | d :: s =>
        if d = 0x75 then
          match s with
          | a₁ :: a₂ :: a₃ :: a₄ :: s =>
            isHex a₁ && isHex a₂ && isHex a₃ && isHex a₄ && rfcString s
          | _ => false
        else isEscape d && rfcString s
    else rfcString s
where
  /-- A hexadecimal digit. -/
  isHex (c : QByte) : Bool :=
    0x30 ≤ c && c ≤ 0x39 || 0x41 ≤ c && c ≤ 0x46 || 0x61 ≤ c && c ≤ 0x66

/-- The phrases of the grammar. Every one starts at `s` and ends at `rest`. -/
inductive JsonPhrase
  /-- A value and its node. -/
  | value (defect spaced : Bool) (name s : List QByte) (n : JsonNode) (rest : List QByte)
  /-- What stands in the place of a value and is not one; `rest` starts with a closing bracket. -/
  | unclosed (s rest : List QByte)
  /-- The members of an object up to a closing bracket, and their nodes. -/
  | members (defect spaced : Bool) (s : List QByte) (ns : List JsonNode) (rest : List QByte)
  /-- The elements of an array from index `idx` on up to a closing bracket, and their nodes. -/
  | elements (defect spaced : Bool) (idx : ℕ) (s : List QByte) (ns : List JsonNode)
      (rest : List QByte)

/-- A quoted key at the start of `s`, and whether it is not an RFC 8259 string. -/
structure JsonKey (defect : Bool) (s name rest : List QByte) : Prop where
  intro ::
  starts : ∃ t, s = quote :: t ∧ scanQuoted t = quote :: rest ∧ name = between t (quote :: rest)
  defect_eq : defect = !rfcString name

/-- The language of the parser. -/
inductive Derives : JsonPhrase → Prop
  | object {d sp name s t ns rest} (open_ : jsonSkipWhite s = lbrace :: t)
      (members : Derives (.members d sp (jsonSkipWhite t) ns (rbrace :: rest))) :
      Derives (.value d sp name s (.mk .object name none ns) rest)
  | array {d sp name s t ns rest} (open_ : jsonSkipWhite s = lbracket :: t)
      (elements : Derives (.elements d sp 0 (jsonSkipWhite t) ns (rbracket :: rest))) :
      Derives (.value d sp name s (.mk .array name none ns) rest)
  | string {name s t rest} (open_ : jsonSkipWhite s = quote :: t)
      (close : scanQuoted t = quote :: rest) :
      Derives (.value (!rfcString (between t (quote :: rest))) false name s
        (.mk .string name (some (t, quote :: rest)) []) rest)
  | word {name s c t} (start : jsonSkipWhite s = c :: t) (hq : c ≠ quote)
      (hd : isDelimiter c = false) :
      Derives (.value false false name s
        (.mk (wordType (between (c :: t) (scanWord t))) name (some (c :: t, scanWord t)) [])
        (scanWord t))
  /-- No value at all. -/
  | missing {s c rest} (close : jsonSkipWhite s = c :: rest) (hc : IsCloser c) :
      Derives (.unclosed s (c :: rest))
  /-- An object that is open where an array around it closes. -/
  | openObject {d s t ns rest} (open_ : jsonSkipWhite s = lbrace :: t)
      (members : Derives (.members d false (jsonSkipWhite t) ns (rbracket :: rest))) :
      Derives (.unclosed s (rbracket :: rest))
  /-- An array that is open where an object around it closes. -/
  | openArray {d s t ns rest} (open_ : jsonSkipWhite s = lbracket :: t)
      (elements : Derives (.elements d false 0 (jsonSkipWhite t) ns (rbrace :: rest))) :
      Derives (.unclosed s (rbrace :: rest))
  | noMembers {c rest} (hc : IsCloser c) :
      Derives (.members false false (c :: rest) [] (c :: rest))
  | lastMember {kd d sp s name r t n u c rest} (key : JsonKey kd s name r)
      (hcolon : jsonSkipWhite r = colon :: t) (value : Derives (.value d sp name t n u))
      (close : jsonSkipWhite u = c :: rest) (hc : IsCloser c) :
      Derives (.members (kd || d) sp s [n] (c :: rest))
  | member {kd d sp d' sp' s name r t n u v ns rest} (key : JsonKey kd s name r)
      (hcolon : jsonSkipWhite r = colon :: t) (value : Derives (.value d sp name t n u))
      (hcomma : jsonSkipWhite u = comma :: v)
      (members : Derives (.members d' sp' (jsonSkipWhite v) ns rest)) :
      Derives (.members (kd || d || d') (sp || sp') s (n :: ns) rest)
  /-- A key without a colon before the closing bracket. -/
  | lastKey {kd s name r c rest} (key : JsonKey kd s name r) (close : jsonSkipWhite r = c :: rest)
      (hc : IsCloser c) : Derives (.members true false s [] (c :: rest))
  /-- A key without a colon before a comma. -/
  | key {kd d sp s name r v ns rest} (key : JsonKey kd s name r)
      (hcomma : jsonSkipWhite r = comma :: v)
      (members : Derives (.members d sp (jsonSkipWhite v) ns rest)) :
      Derives (.members true sp s ns rest)
  /-- A key and a colon without a value. -/
  | brokenMember {kd s name r t c rest} (key : JsonKey kd s name r)
      (hcolon : jsonSkipWhite r = colon :: t) (value : Derives (.unclosed t (c :: rest)))
      (hc : IsCloser c) : Derives (.members true false s [] (c :: rest))
  | noElements {idx c rest} (hc : IsCloser c) :
      Derives (.elements false false idx (c :: rest) [] (c :: rest))
  | lastElement {d sp idx s n u c rest} (value : Derives (.value d sp (decimal idx) s n u))
      (close : jsonSkipWhite u = c :: rest) (hc : IsCloser c) :
      Derives (.elements d sp idx s [n] (c :: rest))
  | element {d sp d' sp' idx s n u v ns rest} (value : Derives (.value d sp (decimal idx) s n u))
      (hcomma : jsonSkipWhite u = comma :: v)
      (elements : Derives (.elements d' sp' (idx + 1) (jsonSkipWhite v) ns rest)) :
      Derives (.elements (d || d') (sp || u.head? ≠ some comma || sp') idx s (n :: ns) rest)
  /-- An object or array that is not closed in the place of an element. -/
  | brokenElement {idx s c rest} (value : Derives (.unclosed s (c :: rest))) (hc : IsCloser c)
      (hs : ∀ c', s.head? = some c' → ¬ IsCloser c') :
      Derives (.elements true false idx s [] (c :: rest))

/-! ## Soundness -/

/-- A result of `JSON_ParseNode` has a derivation: a node always, a failure when it stops at a
closing bracket. A failure stops behind white space. -/
def NodeSound (name s : List QByte) : Option JsonNode × List QByte → Prop
  | (some n, r) => ∃ d, Derives (.value d false name s n r)
  | (none, r) => jsonSkipWhite r = r ∧
    ∀ c t, r = c :: t → IsCloser c → Derives (.unclosed s (c :: t))

/-- The same for the member loop. -/
def MembersSound (s : List QByte) : List JsonNode × List QByte → Prop
  | (ns, r) => jsonSkipWhite r = r ∧
    ∀ c t, r = c :: t → IsCloser c → ∃ d, Derives (.members d false s ns (c :: t))

/-- The same for the element loop and the white space after it. -/
def ElementsSound (idx : ℕ) (s : List QByte) : List JsonNode × List QByte → Prop
  | (ns, r) => ∀ c t, jsonSkipWhite r = c :: t → IsCloser c →
    ∃ d, Derives (.elements d false idx s ns (c :: t))

theorem nodeSound_nil (name s : List QByte) : NodeSound name s (none, []) := by
  refine ⟨jsonSkipWhite_nil, ?_⟩
  intro c t e
  cases e

theorem membersSound_nil (s : List QByte) (ns : List JsonNode) : MembersSound s (ns, []) := by
  refine ⟨jsonSkipWhite_nil, ?_⟩
  intro c t e
  cases e

theorem IsCloser.isDelimiter (h : IsCloser c) : isDelimiter c = true := by
  rcases h with rfl | rfl <;> decide

/-- Strings and unquoted words. -/
theorem jsonParseScalar_sound {name t : List QByte}
    (hs : jsonSkipWhite s = c :: t) : NodeSound name s (jsonParseScalar name (c :: t)) := by
  unfold jsonParseScalar
  by_cases hq : c = quote
  · subst hq
    rcases jsonParseString_quote_cases t with h | ⟨u, hu, h⟩
    · rw [h]
      exact nodeSound_nil name s
    · rw [h]
      exact ⟨_, .string hs hu⟩
  · cases hd : isDelimiter c with
    | true =>
      rw [jsonParseString_delimiter hd]
      refine ⟨by rw [← hs, jsonSkipWhite_idem], ?_⟩
      intro c' r e hc
      cases e
      exact .missing hs hc
    | false =>
      rw [jsonParseString_word hq hd]
      simp only [List.head?_cons, Option.some.injEq, if_neg hq]
      exact ⟨_, .word hs hq hd⟩

theorem jsonParseNode_sound (hm : ∀ s, jsonSkipWhite s = s → MembersSound s (jsonMembers fuel s))
    (he : ∀ idx s, jsonSkipWhite s = s → ElementsSound idx s (jsonElements fuel idx s))
    (name s : List QByte) : NodeSound name s (jsonParseNode (fuel + 1) name s) := by
  rw [jsonParseNode]
  cases hs : jsonSkipWhite s with
  | nil => exact nodeSound_nil name s
  | cons c t =>
    simp only
    split
    · rename_i hc
      subst hc
      have hu := hm (jsonSkipWhite t) (jsonSkipWhite_idem t)
      generalize jsonMembers fuel (jsonSkipWhite t) = p at hu ⊢
      obtain ⟨ns, u⟩ := p
      cases u with
      | nil => exact nodeSound_nil name s
      | cons c' u =>
        simp only
        split
        · rename_i hc'
          subst hc'
          obtain ⟨d, hd⟩ := hu.2 _ _ rfl (Or.inl rfl)
          exact ⟨d, .object hs hd⟩
        · rename_i hne
          refine ⟨hu.1, ?_⟩
          intro c'' r e hcl
          cases e
          obtain ⟨d, hd⟩ := hu.2 _ _ rfl hcl
          obtain rfl := hcl.resolve_left hne
          exact .openObject hs hd
    · split
      · rename_i hc
        subst hc
        have hu := he 0 (jsonSkipWhite t) (jsonSkipWhite_idem t)
        generalize jsonElements fuel 0 (jsonSkipWhite t) = p at hu ⊢
        obtain ⟨ns, u⟩ := p
        simp only
        cases hv : jsonSkipWhite u with
        | nil => exact nodeSound_nil name s
        | cons c' v =>
          simp only
          split
          · rename_i hc'
            subst hc'
            obtain ⟨d, hd⟩ := hu _ _ hv (Or.inr rfl)
            exact ⟨d, .array hs hd⟩
          · rename_i hne
            refine ⟨by rw [← hv, jsonSkipWhite_idem], ?_⟩
            intro c'' r e hcl
            cases e
            obtain ⟨d, hd⟩ := hu _ _ hv hcl
            obtain rfl := hcl.resolve_right hne
            exact .openArray hs hd
      · exact jsonParseScalar_sound hs

theorem jsonElements_sound (hn : ∀ name s, NodeSound name s (jsonParseNode fuel name s))
    (he : ∀ idx s, jsonSkipWhite s = s → ElementsSound idx s (jsonElements fuel idx s))
    (idx : ℕ) (s : List QByte) (hs : jsonSkipWhite s = s) :
    ElementsSound idx s (jsonElements (fuel + 1) idx s) := by
  rw [jsonElements]
  have hu := hn (decimal idx) s
  generalize jsonParseNode fuel (decimal idx) s = p at hu ⊢
  obtain ⟨_ | n, u⟩ := p
  · -- the element is missing or broken
    intro c t ht hc
    have ht' : u = c :: t := hu.1.symm.trans ht
    have hun := hu.2 c t ht' hc
    cases s with
    | nil =>
      cases hun with
      | missing h => cases h.symm.trans hs
      | openObject h => cases h.symm.trans hs
      | openArray h => cases h.symm.trans hs
    | cons c' s =>
      by_cases hc' : IsCloser c'
      · cases hun with
        | missing h =>
          rw [hs] at h
          cases h
          exact ⟨false, .noElements hc⟩
        | openObject h =>
          rw [hs] at h
          cases h
          exact absurd hc' (by rintro (h | h) <;> cases h)
        | openArray h =>
          rw [hs] at h
          cases h
          exact absurd hc' (by rintro (h | h) <;> cases h)
      · refine ⟨true, .brokenElement hun hc ?_⟩
        intro c'' e
        cases e
        exact hc'
  · obtain ⟨d, hd⟩ := hu
    cases u with
    | nil =>
      intro c t ht hc
      rw [jsonSkipWhite_nil] at ht
      cases ht
    | cons c' u =>
      simp only
      split
      · rename_i hc'
        subst hc'
        have hv := he (idx + 1) (jsonSkipWhite u) (jsonSkipWhite_idem u)
        generalize jsonElements fuel (idx + 1) (jsonSkipWhite u) = p at hv ⊢
        obtain ⟨ns, v⟩ := p
        intro c t ht hc
        obtain ⟨d', hd'⟩ := hv c t ht hc
        exact ⟨_, .element hd (jsonSkipWhite_cons (by decide) (by decide)) hd'⟩
      · intro c t ht hc
        exact ⟨d, .lastElement hd ht hc⟩

theorem jsonMembers_sound (hn : ∀ name s, NodeSound name s (jsonParseNode fuel name s))
    (hm : ∀ s, jsonSkipWhite s = s → MembersSound s (jsonMembers fuel s)) (s : List QByte) (hs : jsonSkipWhite s = s) :
    MembersSound s (jsonMembers (fuel + 1) s) := by
  rw [jsonMembers]
  split
  · rename_i hq
    obtain ⟨t, rfl⟩ : ∃ t, s = quote :: t := by
      cases s with
      | nil => cases hq
      | cons c t => exact ⟨t, by rw [Option.some.inj hq]⟩
    rcases jsonParseString_quote_cases t with h | ⟨r, hr, h⟩
    · rw [h]
      exact membersSound_nil _ _
    · rw [h]
      have hkey : JsonKey _ (quote :: t) (between t (quote :: r)) r := ⟨⟨t, rfl, hr, rfl⟩, rfl⟩
      simp only
      cases hcolon : jsonSkipWhite r with
      | nil =>
        simp only [jsonSkipWhite_nil]
        exact membersSound_nil _ _
      | cons c u =>
        by_cases hc : c = colon
        · subst hc
          simp only [if_true]
          have hv := hn (between t (quote :: r)) u
          generalize jsonParseNode fuel (between t (quote :: r)) u = p at hv ⊢
          obtain ⟨_ | n, v⟩ := p
          · refine ⟨hv.1, ?_⟩
            intro c' w e hc'
            exact ⟨true, .brokenMember hkey hcolon (hv.2 c' w e hc') hc'⟩
          · obtain ⟨d, hd⟩ := hv
            simp only
            cases hw : jsonSkipWhite v with
            | nil => exact membersSound_nil _ _
            | cons c' w =>
              simp only
              split
              · rename_i hc'
                subst hc'
                have hx := hm (jsonSkipWhite w) (jsonSkipWhite_idem w)
                generalize jsonMembers fuel (jsonSkipWhite w) = p at hx ⊢
                obtain ⟨ns, x⟩ := p
                refine ⟨hx.1, ?_⟩
                intro c'' y e hc''
                obtain ⟨d', hd'⟩ := hx.2 c'' y e hc''
                exact ⟨_, .member hkey hcolon hd hw hd'⟩
              · refine ⟨by rw [← hw, jsonSkipWhite_idem], ?_⟩
                intro c'' y e hc''
                cases e
                exact ⟨_, .lastMember hkey hcolon hd hw hc''⟩
        · simp only [if_neg hc]
          have hr : jsonSkipWhite (c :: u) = c :: u := by rw [← hcolon, jsonSkipWhite_idem]
          rw [hr]
          simp only
          split
          · rename_i hc'
            subst hc'
            have hx := hm (jsonSkipWhite u) (jsonSkipWhite_idem u)
            generalize jsonMembers fuel (jsonSkipWhite u) = p at hx ⊢
            obtain ⟨ns, x⟩ := p
            refine ⟨hx.1, ?_⟩
            intro c'' y e hc''
            obtain ⟨d', hd'⟩ := hx.2 c'' y e hc''
            exact ⟨true, .key hkey hcolon hd'⟩
          · refine ⟨hr, ?_⟩
            intro c'' y e hc''
            cases e
            exact ⟨true, .lastKey hkey hcolon hc''⟩
  · rename_i hq
    refine ⟨hs, ?_⟩
    intro c t e hc
    subst e
    exact ⟨false, .noMembers hc⟩

/-- **Every result of the parser has a derivation.** -/
theorem jsonParse_sound (fuel : ℕ) :
    (∀ name s, NodeSound name s (jsonParseNode fuel name s)) ∧
      (∀ s, jsonSkipWhite s = s → MembersSound s (jsonMembers fuel s)) ∧
      ∀ idx s, jsonSkipWhite s = s → ElementsSound idx s (jsonElements fuel idx s) := by
  induction fuel with
  | zero =>
    refine ⟨?_, ?_, ?_⟩
    · intro name s
      rw [jsonParseNode]
      exact nodeSound_nil name s
    · intro s _
      rw [jsonMembers]
      exact membersSound_nil s []
    · intro idx s _
      rw [jsonElements]
      intro c t ht
      rw [jsonSkipWhite_nil] at ht
      cases ht
  | succ fuel ih =>
    obtain ⟨hn, hm, he⟩ := ih
    exact ⟨jsonParseNode_sound hm he, jsonMembers_sound hn hm, jsonElements_sound hn he⟩

end FteQuake
