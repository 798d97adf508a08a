import FteQuake.Common.JsonGrammar

/-!
# The JSON parser follows its grammar

The converse of `jsonParse_sound`: on a text with a derivation the parser returns the node of the
derivation (`Derives.follows`). A derivation that is spaced is followed as far as the white space
before the comma; there the parser fails, and so does every object and array around it, because
each of them finds a comma where it looks for its own bracket.

To tell the derivations with a defect from those without, `jsonDefect` reads off a text whether
the run of the parser on it has a defect.
-/

namespace FteQuake

open List

/-! ## Defects of a run -/

mutual

/-- Does the value that `JSON_ParseNode` reads have a defect? -/
def jsonDefect : (fuel : ℕ) → (s : List QByte) → Bool
  | 0, _ => false
  | fuel + 1, s =>
    match jsonSkipWhite s with
    | [] => false
    | c :: s =>
      if c = lbrace then jsonMembersDefect fuel (jsonSkipWhite s)
      else if c = lbracket then jsonElementsDefect fuel 0 (jsonSkipWhite s)
      else if c = quote then !rfcString (between s (scanQuoted s))
      else false

/-- The same for the member loop. -/
def jsonMembersDefect : (fuel : ℕ) → (s : List QByte) → Bool
  | 0, _ => false
  | fuel + 1, s =>
    if s.head? = some quote then
      let name := between s.tail (scanQuoted s.tail)
      match jsonSkipWhite (scanQuoted s.tail).tail with
      | [] => true
      | c :: r =>
        if c = colon then
          match jsonParseNode fuel name r with
          | (none, _) => true
          | (some _, u) =>
            !rfcString name || jsonDefect fuel r ||
              match jsonSkipWhite u with
              | [] => false
              | c :: v => if c = comma then jsonMembersDefect fuel (jsonSkipWhite v) else false
        else true
    else false

/-- The same for the element loop. -/
def jsonElementsDefect : (fuel idx : ℕ) → (s : List QByte) → Bool
  | 0, _, _ => false
  | fuel + 1, idx, s =>
    match jsonParseNode fuel (decimal idx) s with
    | (none, r) => s ≠ r
    | (some _, u) =>
      jsonDefect fuel s ||
        match u with
        | [] => false
        | c :: v => if c = comma then jsonElementsDefect fuel (idx + 1) (jsonSkipWhite v) else false

end

/-- What the parser does on a phrase, given enough fuel: it follows a derivation that is not
spaced, and fails at a comma on one that is, if that has no defect. -/
def Follows : JsonPhrase → Prop
  | .value d sp name s n rest => rest.length < s.length ∧ ∀ fuel, 2 * s.length + 1 ≤ fuel →
    (sp = false → jsonParseNode fuel name s = (some n, rest) ∧ jsonDefect fuel s = d) ∧
      (sp = true → d = false → ∃ r, jsonParseNode fuel name s = (none, comma :: r))
  | .unclosed s rest => rest.length ≤ s.length ∧ ∀ fuel, 2 * s.length + 1 ≤ fuel →
    ∀ name, jsonParseNode fuel name s = (none, rest)
  | .members d sp s ns rest => rest.length ≤ s.length ∧ ∀ fuel, 2 * s.length + 2 ≤ fuel →
    (sp = false → jsonMembers fuel s = (ns, rest) ∧ jsonMembersDefect fuel s = d) ∧
      (sp = true → d = false → ∃ ns' r, jsonMembers fuel s = (ns', comma :: r))
  | .elements d sp idx s ns rest => rest.length ≤ s.length ∧ ∀ fuel, 2 * s.length + 2 ≤ fuel →
    (sp = false → (∃ r, jsonElements fuel idx s = (ns, r) ∧ jsonSkipWhite r = rest) ∧
      jsonElementsDefect fuel idx s = d) ∧
      (sp = true → d = false →
        ∃ ns' r r', jsonElements fuel idx s = (ns', r) ∧ jsonSkipWhite r = comma :: r')

/-! ## Single steps -/

section Steps

variable {fuel idx : ℕ} {name s t u v w r : List QByte} {c d : QByte} {ns : List JsonNode}
  {n : JsonNode}

theorem jsonParseNode_object (hs : jsonSkipWhite s = lbrace :: t)
    (hm : jsonMembers fuel (jsonSkipWhite t) = (ns, d :: r)) :
    jsonParseNode (fuel + 1) name s
      = if d = rbrace then (some (.mk .object name none ns), r) else (none, d :: r) := by
  rw [jsonParseNode, hs]
  simp only [if_true, hm]

theorem jsonParseNode_array (hs : jsonSkipWhite s = lbracket :: t)
    (he : jsonElements fuel 0 (jsonSkipWhite t) = (ns, u)) (hu : jsonSkipWhite u = d :: r) :
    jsonParseNode (fuel + 1) name s
      = if d = rbracket then (some (.mk .array name none ns), r) else (none, d :: r) := by
  have hne : lbracket ≠ lbrace := by decide
  rw [jsonParseNode, hs]
  simp [if_neg hne, he, hu]

theorem jsonParseNode_scalar (hs : jsonSkipWhite s = c :: t) (h₁ : c ≠ lbrace)
    (h₂ : c ≠ lbracket) : jsonParseNode (fuel + 1) name s = jsonParseScalar name (c :: t) := by
  rw [jsonParseNode, hs]
  simp only [if_neg h₁, if_neg h₂]

theorem jsonDefect_object (hs : jsonSkipWhite s = lbrace :: t) :
    jsonDefect (fuel + 1) s = jsonMembersDefect fuel (jsonSkipWhite t) := by
  rw [jsonDefect, hs]
  simp only [if_true]

theorem jsonDefect_array (hs : jsonSkipWhite s = lbracket :: t) :
    jsonDefect (fuel + 1) s = jsonElementsDefect fuel 0 (jsonSkipWhite t) := by
  have hne : lbracket ≠ lbrace := by decide
  rw [jsonDefect, hs]
  simp only [if_neg hne, if_true]

theorem jsonDefect_scalar (hs : jsonSkipWhite s = c :: t) (h₁ : c ≠ lbrace) (h₂ : c ≠ lbracket) :
    jsonDefect (fuel + 1) s
      = if c = quote then !rfcString (between t (scanQuoted t)) else false := by
  rw [jsonDefect, hs]
  simp only [if_neg h₁, if_neg h₂]

/-- A key and a colon whose value fails. -/
theorem jsonMembers_broken (hr : scanQuoted t = quote :: r) (hcolon : jsonSkipWhite r = colon :: u)
    (hn : jsonParseNode fuel (between t (quote :: r)) u = (none, v)) :
    jsonMembers (fuel + 1) (quote :: t) = ([], v) ∧
      jsonMembersDefect (fuel + 1) (quote :: t) = true := by
  constructor
  · rw [jsonMembers, head?_cons, if_pos rfl, jsonParseString_quote hr]
    simp [hcolon, hn]
  · rw [jsonMembersDefect, head?_cons, if_pos rfl]
    simp [hr, hcolon, hn]

/-- A member that is the last one. -/
theorem jsonMembers_last (hr : scanQuoted t = quote :: r) (hcolon : jsonSkipWhite r = colon :: u)
    (hn : jsonParseNode fuel (between t (quote :: r)) u = (some n, v))
    (hv : jsonSkipWhite v = d :: w) (hd : d ≠ comma) :
    jsonMembers (fuel + 1) (quote :: t) = ([n], d :: w) ∧
      jsonMembersDefect (fuel + 1) (quote :: t)
        = (!rfcString (between t (quote :: r)) || jsonDefect fuel u) := by
  constructor
  · rw [jsonMembers, head?_cons, if_pos rfl, jsonParseString_quote hr]
    simp [hcolon, hn, hv, if_neg hd]
  · rw [jsonMembersDefect, head?_cons, if_pos rfl]
    simp [hr, hcolon, hn, hv, if_neg hd]

/-- A member before a comma. -/
theorem jsonMembers_more (hr : scanQuoted t = quote :: r) (hcolon : jsonSkipWhite r = colon :: u)
    (hn : jsonParseNode fuel (between t (quote :: r)) u = (some n, v)) (hv : jsonSkipWhite v = comma :: w) :
    jsonMembers (fuel + 1) (quote :: t)
        = (n :: (jsonMembers fuel (jsonSkipWhite w)).1, (jsonMembers fuel (jsonSkipWhite w)).2) ∧
      jsonMembersDefect (fuel + 1) (quote :: t)
        = (!rfcString (between t (quote :: r)) || jsonDefect fuel u
          || jsonMembersDefect fuel (jsonSkipWhite w)) := by
  constructor
  · rw [jsonMembers, head?_cons, if_pos rfl, jsonParseString_quote hr]
    simp [hcolon, hn, hv]
  · rw [jsonMembersDefect, head?_cons, if_pos rfl]
    simp [hr, hcolon, hn, hv]

/-- A key without a colon that is the last one. -/
theorem jsonMembers_lastKey (hr : scanQuoted t = quote :: r) (hd : jsonSkipWhite r = d :: w)
    (h₁ : d ≠ colon) (h₂ : d ≠ comma) :
    jsonMembers (fuel + 1) (quote :: t) = ([], d :: w) ∧
      jsonMembersDefect (fuel + 1) (quote :: t) = true := by
  have hd' : jsonSkipWhite (d :: w) = d :: w := by rw [← hd, jsonSkipWhite_idem]
  constructor
  · rw [jsonMembers, head?_cons, if_pos rfl, jsonParseString_quote hr]
    simp only [hd, if_neg h₁, hd', if_neg h₂]
  · rw [jsonMembersDefect, head?_cons, if_pos rfl]
    simp [hr, hd, if_neg h₁]

/-- A key without a colon before a comma. -/
theorem jsonMembers_key (hr : scanQuoted t = quote :: r) (hv : jsonSkipWhite r = comma :: w) :
    jsonMembers (fuel + 1) (quote :: t) = jsonMembers fuel (jsonSkipWhite w) ∧
      jsonMembersDefect (fuel + 1) (quote :: t) = true := by
  have hne : comma ≠ colon := by decide
  have hv' : jsonSkipWhite (comma :: w) = comma :: w := by rw [← hv, jsonSkipWhite_idem]
  constructor
  · rw [jsonMembers, head?_cons, if_pos rfl, jsonParseString_quote hr]
    simp [hv, if_neg hne, hv']
  · rw [jsonMembersDefect, head?_cons, if_pos rfl]
    simp [hr, hv, if_neg hne]

/-- An element that fails. -/
theorem jsonElements_none (hn : jsonParseNode fuel (decimal idx) s = (none, r)) :
    jsonElements (fuel + 1) idx s = ([], r) ∧
      jsonElementsDefect (fuel + 1) idx s = decide (s ≠ r) := by
  rw [jsonElements, jsonElementsDefect]
  simp only [hn]
  exact ⟨trivial, trivial⟩

/-- An element with no comma right behind it. -/
theorem jsonElements_last (hn : jsonParseNode fuel (decimal idx) s = (some n, r)) (hr : r.head? ≠ some comma) :
    jsonElements (fuel + 1) idx s = ([n], r) ∧
      jsonElementsDefect (fuel + 1) idx s = jsonDefect fuel s := by
  rw [jsonElements, jsonElementsDefect]
  cases r with
  | nil => simp [hn]
  | cons c r =>
    have hc : c ≠ comma := fun e => hr (by rw [e]; rfl)
    simp [hn, hc]

/-- An element with a comma right behind it. -/
theorem jsonElements_more (hn : jsonParseNode fuel (decimal idx) s = (some n, comma :: v)) :
    jsonElements (fuel + 1) idx s
        = (n :: (jsonElements fuel (idx + 1) (jsonSkipWhite v)).1,
          (jsonElements fuel (idx + 1) (jsonSkipWhite v)).2) ∧
      jsonElementsDefect (fuel + 1) idx s
        = (jsonDefect fuel s || jsonElementsDefect fuel (idx + 1) (jsonSkipWhite v)) := by
  rw [jsonElements, jsonElementsDefect]
  simp [hn]

/-- The member loop at a closing bracket. -/
theorem jsonMembers_close (hc : IsCloser c) :
    jsonMembers (fuel + 1) (c :: s) = ([], c :: s) ∧
      jsonMembersDefect (fuel + 1) (c :: s) = false := by
  have hq : (c :: s).head? ≠ some quote := by
    rcases hc with rfl | rfl <;> simp <;> decide
  rw [jsonMembers, jsonMembersDefect, if_neg hq, if_neg hq]
  exact ⟨rfl, rfl⟩

theorem jsonParseScalar_quote (hr : scanQuoted t = quote :: r) :
    jsonParseScalar name (quote :: t)
      = (some (.mk .string name (some (t, quote :: r)) []), r) := by
  rw [jsonParseScalar, jsonParseString_quote hr]
  simp only [head?_cons, if_true]

theorem jsonParseScalar_word (hq : c ≠ quote) (hd : isDelimiter c = false) :
    jsonParseScalar name (c :: t)
      = (some (.mk (wordType (between (c :: t) (scanWord t))) name
          (some (c :: t, scanWord t)) []), scanWord t) := by
  rw [jsonParseScalar, jsonParseString_word hq hd]
  simp [head?_cons, if_neg hq]

/-- A closing bracket in the place of a value. -/
theorem jsonParseNode_closer (hs : jsonSkipWhite s = c :: t) (hc : IsCloser c) :
    jsonParseNode (fuel + 1) name s = (none, c :: t) := by
  rw [jsonParseNode_scalar hs (by rcases hc with rfl | rfl <;> decide)
    (by rcases hc with rfl | rfl <;> decide), jsonParseScalar,
    jsonParseString_delimiter hc.isDelimiter]

end Steps

variable {t text : List QByte} {c : QByte}

theorem IsCloser.ne_comma (h : IsCloser c) : c ≠ comma := by
  rcases h with rfl | rfl <;> decide

theorem IsCloser.ne_colon (h : IsCloser c) : c ≠ colon := by
  rcases h with rfl | rfl <;> decide

theorem length_of_skipWhite {s : List QByte} (h : jsonSkipWhite s = c :: t) :
    t.length < s.length := by
  have hlen := length_jsonSkipWhite_le s
  rw [h, length_cons] at hlen
  exact hlen

theorem length_of_scanQuoted {s : List QByte} (h : scanQuoted s = c :: t) :
    t.length < s.length := by
  have hlen := length_scanQuoted_le s
  rw [h, length_cons] at hlen
  exact hlen

theorem skipWhite_comma (s : List QByte) : jsonSkipWhite (comma :: s) = comma :: s :=
  jsonSkipWhite_cons (by decide) (by decide)

theorem head_ne_comma {u : List QByte} (h : jsonSkipWhite u = c :: t) (hc : c ≠ comma) : u.head? ≠ some comma := by
  intro e
  obtain ⟨v, rfl⟩ : ∃ v, u = comma :: v := ⟨u.tail, (eq_cons_of_mem_head? e)⟩
  rw [skipWhite_comma] at h
  cases h
  exact hc rfl

/-! ## Following a derivation -/

/-- **The parser follows every derivation.** -/
theorem Derives.follows {p : JsonPhrase} (h : Derives p) : Follows p := by
  induction h with
  | @object d sp name s t ns rest hs _ ih =>
    obtain ⟨hlen, hf⟩ := ih
    have ht := length_of_skipWhite hs
    have ht' := length_jsonSkipWhite_le t
    rw [length_cons] at hlen
    refine ⟨by omega, ?_⟩
    rintro (_ | f) hfuel
    · omega
    have h := hf f (by omega)
    constructor
    · intro hsp
      obtain ⟨hm, hd⟩ := h.1 hsp
      exact ⟨by rw [jsonParseNode_object hs hm, if_pos rfl], by rw [jsonDefect_object hs, hd]⟩
    · intro hsp hd
      obtain ⟨ns', r, hm⟩ := h.2 hsp hd
      exact ⟨r, by rw [jsonParseNode_object hs hm, if_neg (by decide)]⟩
  | @array d sp name s t ns rest hs _ ih =>
    obtain ⟨hlen, hf⟩ := ih
    have ht := length_of_skipWhite hs
    have ht' := length_jsonSkipWhite_le t
    rw [length_cons] at hlen
    refine ⟨by omega, ?_⟩
    rintro (_ | f) hfuel
    · omega
    have h := hf f (by omega)
    constructor
    · intro hsp
      obtain ⟨⟨u, he, hu⟩, hd⟩ := h.1 hsp
      exact ⟨by rw [jsonParseNode_array hs he hu, if_pos rfl], by rw [jsonDefect_array hs, hd]⟩
    · intro hsp hd
      obtain ⟨ns', u, r, he, hu⟩ := h.2 hsp hd
      exact ⟨r, by rw [jsonParseNode_array hs he hu, if_neg (by decide)]⟩
  | @string name s t rest hs hclose =>
    have ht := length_of_skipWhite hs
    have hr := length_of_scanQuoted hclose
    refine ⟨by omega, ?_⟩
    rintro (_ | f) hfuel
    · omega
    have h₁ : quote ≠ lbrace := by decide
    have h₂ : quote ≠ lbracket := by decide
    refine ⟨fun _ => ⟨?_, ?_⟩, fun hsp => absurd hsp Bool.false_ne_true⟩
    · rw [jsonParseNode_scalar hs h₁ h₂, jsonParseScalar_quote hclose]
    · rw [jsonDefect_scalar hs h₁ h₂, if_pos rfl, hclose]
  | @word name s c t hs hq hd =>
    have ht := length_of_skipWhite hs
    have hr := length_scanWord_le t
    refine ⟨by omega, ?_⟩
    rintro (_ | f) hfuel
    · omega
    have h₁ : c ≠ lbrace := by
      rintro rfl
      exact absurd hd (by decide)
    have h₂ : c ≠ lbracket := by
      rintro rfl
      exact absurd hd (by decide)
    refine ⟨fun _ => ⟨?_, ?_⟩, fun hsp => absurd hsp Bool.false_ne_true⟩
    · rw [jsonParseNode_scalar hs h₁ h₂, jsonParseScalar_word hq hd]
    · rw [jsonDefect_scalar hs h₁ h₂, if_neg hq]
  | @missing s c rest hs hc =>
    have ht := length_of_skipWhite hs
    refine ⟨by rw [length_cons]; omega, ?_⟩
    rintro (_ | f) hfuel name
    · omega
    exact jsonParseNode_closer hs hc
  | @openObject d s t ns rest hs _ ih =>
    obtain ⟨hlen, hf⟩ := ih
    have ht := length_of_skipWhite hs
    have ht' := length_jsonSkipWhite_le t
    refine ⟨by omega, ?_⟩
    rintro (_ | f) hfuel name
    · omega
    rw [jsonParseNode_object hs ((hf f (by omega)).1 rfl).1, if_neg (by decide)]
  | @openArray d s t ns rest hs _ ih =>
    obtain ⟨hlen, hf⟩ := ih
    have ht := length_of_skipWhite hs
    have ht' := length_jsonSkipWhite_le t
    refine ⟨by omega, ?_⟩
    rintro (_ | f) hfuel name
    · omega
    obtain ⟨⟨u, he, hu⟩, -⟩ := (hf f (by omega)).1 rfl
    rw [jsonParseNode_array hs he hu, if_neg (by decide)]
  | @noMembers c rest hc =>
    refine ⟨le_rfl, ?_⟩
    rintro (_ | f) hfuel
    · omega
    exact ⟨fun _ => jsonMembers_close hc, fun hsp => absurd hsp Bool.false_ne_true⟩
  | @lastMember kd d sp s name r t n u c rest key hcolon _ hclose hc ih =>
    obtain ⟨⟨q, rfl, hq, rfl⟩, rfl⟩ := key
    obtain ⟨hlen, hf⟩ := ih
    have h₁ := length_of_scanQuoted hq
    have h₂ := length_of_skipWhite hcolon
    have h₃ := length_of_skipWhite hclose
    refine ⟨by simp only [length_cons]; omega, ?_⟩
    rintro (_ | f) hfuel
    · simp at hfuel
    rw [length_cons] at hfuel
    have h := hf f (by omega)
    constructor
    · intro hsp
      obtain ⟨hn, hd⟩ := h.1 hsp
      rw [← hd]
      exact jsonMembers_last hq hcolon hn hclose hc.ne_comma
    · intro hsp hd
      obtain ⟨r', hn⟩ := h.2 hsp (Bool.or_eq_false_iff.1 hd).2
      exact ⟨_, r', (jsonMembers_broken hq hcolon hn).1⟩
  | @member kd d sp d' sp' s name r t n u v ns rest key hcolon _ hcomma _ ih ih' =>
    obtain ⟨⟨q, rfl, hq, rfl⟩, rfl⟩ := key
    obtain ⟨hlen, hf⟩ := ih
    obtain ⟨hlen', hf'⟩ := ih'
    have h₁ := length_of_scanQuoted hq
    have h₂ := length_of_skipWhite hcolon
    have h₃ := length_of_skipWhite hcomma
    have h₄ := length_jsonSkipWhite_le v
    refine ⟨by simp only [length_cons]; omega, ?_⟩
    rintro (_ | f) hfuel
    · simp at hfuel
    rw [length_cons] at hfuel
    have h := hf f (by omega)
    have h' := hf' f (by omega)
    constructor
    · intro hsp
      rw [Bool.or_eq_false_iff] at hsp
      obtain ⟨hn, hd⟩ := h.1 hsp.1
      obtain ⟨hm, hd'⟩ := h'.1 hsp.2
      obtain ⟨e₁, e₂⟩ := jsonMembers_more hq hcolon hn hcomma
      rw [hm] at e₁
      rw [hd, hd'] at e₂
      exact ⟨e₁, e₂⟩
    · intro hsp hd
      rw [Bool.or_eq_false_iff, Bool.or_eq_false_iff] at hd
      cases sp with
      | true =>
        obtain ⟨r', hn⟩ := h.2 rfl hd.1.2
        exact ⟨_, r', (jsonMembers_broken hq hcolon hn).1⟩
      | false =>
        obtain ⟨hn, -⟩ := h.1 rfl
        obtain ⟨ns', r', hm⟩ := h'.2 hsp hd.2
        have e := (jsonMembers_more hq hcolon hn hcomma).1
        rw [hm] at e
        exact ⟨_, r', e⟩
  | @lastKey kd s name r c rest key hclose hc =>
    obtain ⟨⟨q, rfl, hq, rfl⟩, rfl⟩ := key
    have h₁ := length_of_scanQuoted hq
    have h₂ := length_of_skipWhite hclose
    refine ⟨by simp only [length_cons]; omega, ?_⟩
    rintro (_ | f) hfuel
    · simp at hfuel
    rw [length_cons] at hfuel
    exact ⟨fun _ => jsonMembers_lastKey hq hclose hc.ne_colon hc.ne_comma,
      fun _ hd => absurd hd.symm Bool.false_ne_true⟩
  | @key kd d sp s name r v ns rest key hcomma _ ih =>
    obtain ⟨⟨q, rfl, hq, rfl⟩, rfl⟩ := key
    obtain ⟨hlen, hf⟩ := ih
    have h₁ := length_of_scanQuoted hq
    have h₂ := length_of_skipWhite hcomma
    have h₃ := length_jsonSkipWhite_le v
    refine ⟨by simp only [length_cons]; omega, ?_⟩
    rintro (_ | f) hfuel
    · simp at hfuel
    rw [length_cons] at hfuel
    refine ⟨?_, fun _ hd => absurd hd.symm Bool.false_ne_true⟩
    intro hsp
    obtain ⟨hm, -⟩ := (hf f (by omega)).1 hsp
    obtain ⟨e₁, e₂⟩ := @jsonMembers_key f q v r hq hcomma
    exact ⟨by rw [e₁, hm], e₂⟩
  | @brokenMember kd s name r t c rest key hcolon _ hc ih =>
    obtain ⟨⟨q, rfl, hq, rfl⟩, rfl⟩ := key
    obtain ⟨hlen, hf⟩ := ih
    have h₁ := length_of_scanQuoted hq
    have h₂ := length_of_skipWhite hcolon
    rw [length_cons] at hlen
    refine ⟨by simp only [length_cons]; omega, ?_⟩
    rintro (_ | f) hfuel
    · simp at hfuel
    rw [length_cons] at hfuel
    exact ⟨fun _ => jsonMembers_broken hq hcolon (hf f (by omega) _),
      fun hsp => absurd hsp Bool.false_ne_true⟩
  | @noElements idx c rest hc =>
    refine ⟨le_rfl, ?_⟩
    intro fuel hfuel
    rw [length_cons] at hfuel
    obtain ⟨f, rfl⟩ : ∃ f, fuel = f + 1 + 1 := ⟨fuel - 2, by omega⟩
    refine ⟨?_, fun hsp => absurd hsp Bool.false_ne_true⟩
    intro _
    obtain ⟨e₁, e₂⟩ := jsonElements_none (@jsonParseNode_closer f (decimal idx) _ rest c (hc.skipWhite rest) hc)
    exact ⟨⟨_, e₁, hc.skipWhite rest⟩, by rw [e₂]; simp⟩
  | @lastElement d sp idx s n u c rest _ hclose hc ih =>
    obtain ⟨hlen, hf⟩ := ih
    have h₁ := length_of_skipWhite hclose
    refine ⟨by rw [length_cons]; omega, ?_⟩
    rintro (_ | f) hfuel
    · omega
    have h := hf f (by omega)
    constructor
    · intro hsp
      obtain ⟨hn, hd⟩ := h.1 hsp
      have hu := head_ne_comma hclose hc.ne_comma
      obtain ⟨e₁, e₂⟩ := jsonElements_last hn hu
      exact ⟨⟨u, e₁, hclose⟩, by rw [e₂, hd]⟩
    · intro hsp hd
      obtain ⟨r', hn⟩ := h.2 hsp hd
      exact ⟨_, _, r', (jsonElements_none hn).1, jsonSkipWhite_cons (by decide) (by decide)⟩
  | @element d sp d' sp' idx s n u v ns rest _ hcomma _ ih ih' =>
    obtain ⟨hlen, hf⟩ := ih
    obtain ⟨hlen', hf'⟩ := ih'
    have h₁ := length_of_skipWhite hcomma
    have h₂ := length_jsonSkipWhite_le v
    refine ⟨by omega, ?_⟩
    rintro (_ | f) hfuel
    · omega
    have h := hf f (by omega)
    have h' := hf' f (by omega)
    by_cases hu : u.head? = some comma
    · obtain ⟨v', rfl⟩ : ∃ v', u = comma :: v' := ⟨u.tail, eq_cons_of_mem_head? hu⟩
      rw [skipWhite_comma] at hcomma
      cases hcomma
      simp only [hu, ne_eq, not_true_eq_false, decide_false, Bool.or_false]
      constructor
      · intro hsp
        rw [Bool.or_eq_false_iff] at hsp
        obtain ⟨hn, hd⟩ := h.1 hsp.1
        obtain ⟨⟨r, he, hr⟩, hd'⟩ := h'.1 hsp.2
        obtain ⟨e₁, e₂⟩ := jsonElements_more hn
        rw [he] at e₁
        exact ⟨⟨r, e₁, hr⟩, by rw [e₂, hd, hd']⟩
      · intro hsp hd
        rw [Bool.or_eq_false_iff] at hd
        cases sp with
        | true =>
          obtain ⟨r, hn⟩ := h.2 rfl hd.1
          exact ⟨_, _, r, (jsonElements_none hn).1, skipWhite_comma r⟩
        | false =>
          obtain ⟨hn, -⟩ := h.1 rfl
          obtain ⟨ns', r, r', he, hr⟩ := h'.2 hsp hd.2
          have e := (jsonElements_more hn).1
          rw [he] at e
          exact ⟨_, r, r', e, hr⟩
    · simp only [hu, ne_eq, not_false_eq_true, decide_true, Bool.or_true, Bool.true_or]
      refine ⟨fun hsp => absurd hsp.symm Bool.false_ne_true, ?_⟩
      intro _ hd
      rw [Bool.or_eq_false_iff] at hd
      cases sp with
      | true =>
        obtain ⟨r, hn⟩ := h.2 rfl hd.1
        exact ⟨_, _, r, (jsonElements_none hn).1, skipWhite_comma r⟩
      | false =>
        obtain ⟨hn, -⟩ := h.1 rfl
        exact ⟨_, u, v, (jsonElements_last hn hu).1, hcomma⟩
  | @brokenElement idx s c rest _ hc hs ih =>
    obtain ⟨hlen, hf⟩ := ih
    refine ⟨hlen, ?_⟩
    rintro (_ | f) hfuel
    · omega
    refine ⟨?_, fun hsp => absurd hsp Bool.false_ne_true⟩
    intro _
    obtain ⟨e₁, e₂⟩ := jsonElements_none (hf f (by omega) (decimal idx))
    refine ⟨⟨_, e₁, hc.skipWhite rest⟩, ?_⟩
    rw [e₂, decide_eq_true_eq]
    rintro rfl
    exact hs c rfl hc

/-! ## `JSON_Parse` -/

/-- A whole text: a value, with white space and comments around it, after the byte order mark. -/
def JsonText (defect spaced : Bool) (text : List QByte) (n : JsonNode) : Prop :=
  ∃ rest, Derives (.value defect spaced [] (skipByteOrderMark text) n rest) ∧
    jsonSkipWhite rest = []

/-- What `JSON_Parse` returns at a bound on the depth. -/
theorem jsonParseNode_eq_some_iff {fuel : ℕ} (hfuel : 2 * (skipByteOrderMark text).length + 1 ≤ fuel) (n : JsonNode) :
    (if jsonSkipWhite (jsonParseNode fuel [] (skipByteOrderMark text)).2 = [] then
      (jsonParseNode fuel [] (skipByteOrderMark text)).1 else none) = some n ↔
      ∃ d, JsonText d false text n := by
  constructor
  · intro h
    have hs := (jsonParse_sound fuel).1 [] (skipByteOrderMark text)
    generalize jsonParseNode fuel [] (skipByteOrderMark text) = p at h hs
    obtain ⟨n', r⟩ := p
    split at h
    · rename_i hr
      subst h
      obtain ⟨d, hd⟩ := hs
      exact ⟨d, r, hd, hr⟩
    · cases h
  · rintro ⟨d, r, hd, hr⟩
    obtain ⟨-, hf⟩ := hd.follows
    rw [((hf fuel hfuel).1 rfl).1]
    exact if_pos hr

/-- **`JSON_Parse` returns a node if and only if it has a derivation that is not spaced.** -/
theorem jsonParse_eq_some_iff (text : List QByte) (n : JsonNode) :
    jsonParse text = some n ↔ ∃ d, JsonText d false text n :=
  jsonParseNode_eq_some_iff le_rfl n

/-- The bound on the depth does not matter once it is above twice the length of the text. -/
theorem jsonParse_fuel (text : List QByte) {fuel : ℕ} (hfuel : 2 * (skipByteOrderMark text).length + 1 ≤ fuel) :
    (if jsonSkipWhite (jsonParseNode fuel [] (skipByteOrderMark text)).2 = [] then
      (jsonParseNode fuel [] (skipByteOrderMark text)).1 else none) = jsonParse text := by
  apply Option.ext
  intro n
  rw [jsonParseNode_eq_some_iff hfuel, jsonParse_eq_some_iff]

/-- On a text of the grammar that is spaced, the parser fails. -/
theorem jsonParse_spaced {n : JsonNode} (h : JsonText false true text n) :
    jsonParse text = none := by
  obtain ⟨r, hd, -⟩ := h
  obtain ⟨-, hf⟩ := hd.follows
  obtain ⟨r', hn⟩ := (hf _ le_rfl).2 rfl rfl
  unfold jsonParse
  simp only [hn, skipWhite_comma]
  rfl

/-- A text that the parser reads with a defect is not in the grammar. -/
theorem JsonText.not_of_defect {n n' : JsonNode} {sp : Bool}
    (h : JsonText true false text n) : ¬ JsonText false sp text n' := by
  intro h'
  cases sp with
  | true =>
    have hn := (jsonParse_eq_some_iff text n).2 ⟨true, h⟩
    rw [jsonParse_spaced h'] at hn
    cases hn
  | false =>
    obtain ⟨r, hd, -⟩ := h
    obtain ⟨r', hd', -⟩ := h'
    obtain ⟨-, hf⟩ := hd.follows
    obtain ⟨-, hf'⟩ := hd'.follows
    have e := ((hf _ le_rfl).1 rfl).2
    rw [((hf' _ le_rfl).1 rfl).2] at e
    cases e

/-- **The grammar is unambiguous**: a text that is not spaced has one node, with or without a defect. -/
theorem JsonText.unambiguous {d d' : Bool} {n n' : JsonNode} (h : JsonText d false text n)
    (h' : JsonText d' false text n') : d = d' ∧ n = n' := by
  have hn := (jsonParse_eq_some_iff text n).2 ⟨d, h⟩
  have hn' := (jsonParse_eq_some_iff text n').2 ⟨d', h'⟩
  refine ⟨?_, Option.some.inj (hn.symm.trans hn')⟩
  cases d with
  | false =>
    cases d' with
    | false => rfl
    | true => exact absurd h h'.not_of_defect
  | true =>
    cases d' with
    | false => exact absurd h' h.not_of_defect
    | true => rfl

/-- **What `JSON_Parse` accepts is in the grammar, except for the texts with a defect.** -/
theorem jsonParse_grammar_iff (text : List QByte) :
    (∀ n, jsonParse text = some n → ∃ sp, JsonText false sp text n) ↔
      ¬ ∃ n, JsonText true false text n := by
  constructor
  · rintro h ⟨n, hn⟩
    obtain ⟨sp, h'⟩ := h n ((jsonParse_eq_some_iff text n).2 ⟨true, hn⟩)
    exact hn.not_of_defect h'
  · intro h n hn
    obtain ⟨d, hd⟩ := (jsonParse_eq_some_iff text n).1 hn
    cases d with
    | true => exact absurd ⟨n, hd⟩ h
    | false => exact ⟨false, hd⟩

/-- `{"a":}`. -/
def missingValueText : List QByte := [lbrace, quote, 0x61, quote, colon, rbrace]

theorem missingValueText_defect :
    JsonText true false missingValueText (.mk .object [] none []) := by
  refine ⟨[], .object (t := [quote, 0x61, quote, colon, rbrace]) ?_ ?_, jsonSkipWhite_nil⟩
  · exact jsonSkipWhite_cons (by decide) (by decide)
  · rw [jsonSkipWhite_quote]
    refine .brokenMember (t := [rbrace]) (r := [colon, rbrace]) ⟨⟨_, rfl, rfl, rfl⟩, rfl⟩ ?_ ?_ (Or.inl rfl)
    · exact jsonSkipWhite_cons (by decide) (by decide)
    · exact .missing (jsonSkipWhite_cons (by decide) (by decide)) (Or.inl rfl)

theorem missingValueText_unique : ∃! p : Bool × JsonNode, JsonText p.1 false missingValueText p.2 :=
  ⟨(true, _), missingValueText_defect, fun _ h => Prod.ext_iff.2 (h.unambiguous missingValueText_defect)⟩

/-- `{"a":}` is accepted as an object without members. -/
theorem jsonParse_accepts_missing_value :
    jsonParse missingValueText = some (.mk .object [] none []) ∧
      ¬ ∃ n sp, JsonText false sp missingValueText n := by
  refine ⟨(jsonParse_eq_some_iff _ _).2 ⟨true, missingValueText_defect⟩, ?_⟩
  rintro ⟨n, sp, h⟩
  exact missingValueText_defect.not_of_defect h

end FteQuake
