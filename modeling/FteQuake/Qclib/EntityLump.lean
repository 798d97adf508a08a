import FteQuake.Common.Sizebuf
import FteQuake.Lib.BoundedMemory
import Mathlib.Logic.Relation

/-!
# Tokens of entity lumps

`QCC_COM_Parse` of `qcc_cmdlib.c`, which reads the tokens of maps and saved games into `qcc_token`. A
pointer into a text is what is left of the text, without its terminator; `past` is the place behind the
terminator. A result is `none` where the source reads behind the terminator, or leaves `qcc_token`.

`Skip`, `Quoted` and `Lexeme` are the grammar of these texts. On a text whose comments are closed and whose
strings are closed and short (`WellFormed`) the code does what the grammar says (`qccComParse_wellFormed`);
on any other it leaves its bounds (`safe_iff`): a string may be as long as it likes, and both strings and
comments in `/*` are followed behind the terminator.
-/

namespace FteQuake

open List Option

namespace EntityLump

/-! ## The code -/

/-- A pointer into a text. -/
inductive Ptr
  | null
  | text (s : List QByte)
  | past
  deriving DecidableEq

/-- `sizeof(qcc_token)`. -/
def tokenSize : ℕ := 1024

/-- `qcc_iswhite`. -/
def qccIswhite (c : QByte) : Prop := c = 0x20 ∨ c = 0x0d ∨ c = 0x0a ∨ c = 0x09 ∨ c = 0x0b

instance (c : QByte) : Decidable (qccIswhite c) := inferInstanceAs (Decidable (_ ∨ _ ∨ _ ∨ _ ∨ _))

/-- The characters that are tokens of their own. -/
def Single (c : QByte) : Prop :=
  c = 0x7b ∨ c = 0x7d ∨ c = 0x29 ∨ c = 0x28 ∨ c = 0x27 ∨ c = 0x3a ∨ c = 0x2c

instance (c : QByte) : Decidable (Single c) := inferInstanceAs (Decidable (_ ∨ _ ∨ _ ∨ _ ∨ _ ∨ _ ∨ _))

/-- The characters that end a regular word. -/
def Delimits (c : QByte) : Prop := Single c ∨ c = 0x22 ∨ qccIswhite c

instance (c : QByte) : Decidable (Delimits c) := inferInstanceAs (Decidable (_ ∨ _ ∨ _))

/-- `while (*data && *data != '\n') data++;`. -/
def skipLine (s : List QByte) : List QByte := s.dropWhile (· ≠ 0x0a)

/-- The loop over a comment in `/*`, and `data+=2`. At the end of the text this is behind the terminator. -/
def skipBlock : List QByte → Option (List QByte)
  | a :: b :: s => if a = 0x2a ∧ b = 0x2f then some s else skipBlock (b :: s)
  | _ => none

theorem length_skipBlock {s t : List QByte} (h : skipBlock s = some t) : t.length < s.length := by
  induction s with
  | nil => cases h
  | cons a s ih =>
    cases s with
    | nil => cases h
    | cons b s =>
      rw [skipBlock] at h
      split at h
      · cases h
        simp only [length_cons]
        omega
      · exact (ih h).trans (Nat.lt_succ_self _)

/-- From `skipwhite` on: what is left where the token begins, which is nothing if there is none. -/
def skipWhite : List QByte → Option (List QByte)
  | [] => some []
  | c :: s =>
    if qccIswhite c then skipWhite s
    else if c = 0x2f ∧ s.head? = some 0x2f then skipWhite (skipLine s)
    else if c = 0x2f ∧ s.head? = some 0x2a then
      match _h : skipBlock (c :: s) with
      | none => none
      | some t => skipWhite t
    else some (c :: s)
termination_by s => s.length
decreasing_by
  · exact Nat.lt_succ_self _
  · exact Nat.lt_succ_of_le (List.dropWhile_suffix _).length_le
  · exact length_skipBlock _h

/-- The escapes of strings: the character, and what is left. -/
def escape (c : QByte) (s : List QByte) : Option (QByte × List QByte) :=
  match s with
  | [] => none
  | d :: t =>
    if c = 0x5c ∧ d = 0x22 then some (0x22, t)
    else if c = 0x5c ∧ d = 0x5c then some (0x5c, t)
    else if c = 0x5c ∧ d = 0x6e then some (0x0a, t)
    else if c = 0x5c ∧ d = 0x72 then some (0x0d, t)
    else if c = 0x5c ∧ d = 0x74 then some (0x09, t)
    else none

theorem escape_eq {c d : QByte} {s t : List QByte} (h : escape c s = some (d, t)) : ∃ e, s = e :: t := by
  cases s with
  | nil => cases h
  | cons e s =>
    refine ⟨e, ?_⟩
    unfold escape at h
    grind

theorem length_escape {c d : QByte} {s t : List QByte} (h : escape c s = some (d, t)) :
    t.length < s.length := by
  obtain ⟨e, rfl⟩ := escape_eq h
  exact Nat.lt_succ_self _

/-- `qcc_token[len-1] == '\"'`. -/
def endsInQuote (token : Mem QByte) (len : ℕ) : Option Bool :=
  if len = 0 then some false
  else if len - 1 < tokenSize then some (decide (token (len - 1) = 0x22)) else none

/-- `if (len >= sizeof(qcc_token)-1) ; else qcc_token[len] = c;`. -/
def storeChar (token : Mem QByte) (len : ℕ) (c : QByte) : Mem QByte :=
  if len ≥ tokenSize - 1 then token else token.store len c

/-- The end of a token: the terminator, and the pointer that is returned. -/
def endToken (token : Mem QByte) (len : ℕ) (data : Ptr) : Option (Mem QByte × Ptr) :=
  (token.put tokenSize len 0).map fun token => (token, data)

/-- The loop over a quoted string. -/
def quotedLoop (token : Mem QByte) (len : ℕ) : List QByte → Option (Mem QByte × Ptr)
  | [] => endToken token len .past
  | c :: s =>
    match _h : escape c s with
    | some (d, t) => quotedLoop (storeChar token len d) (len + 1) t
    | none =>
      if c = 0x22 then endToken token len (.text s)
      else if c = 0x0a ∨ c = 0x0d then
        match endsInQuote token len with
        | none => none
        | some true => endToken token len (.text s)
        | some false => quotedLoop (storeChar token len c) (len + 1) s
      else quotedLoop (storeChar token len c) (len + 1) s
termination_by s => s.length
decreasing_by
  · exact (length_escape _h).trans (Nat.lt_succ_self _)
  · exact Nat.lt_succ_self _
  · exact Nat.lt_succ_self _

/-- The loop over a regular word, of which `c` is the next character. -/
def wordLoop (token : Mem QByte) (len : ℕ) (c : QByte) (s : List QByte) : Option (Mem QByte × Ptr) :=
  let token' := storeChar token len c
  let len' := if len ≥ tokenSize - 1 then len else len + 1
  match s with
  | [] => endToken token' len' (.text [])
  | d :: t => if Delimits d then endToken token' len' (.text (d :: t)) else wordLoop token' len' d t

/-- The token at the beginning of a text. -/
def readToken (token : Mem QByte) : List QByte → Option (Mem QByte × Ptr)
  | [] => some (token, .null)
  | c :: s =>
    if c = 0x22 then quotedLoop token 0 s
    else if Single c then endToken (token.store 0 c) 1 (.text s)
    else wordLoop token 0 c s

/-- `QCC_COM_Parse`. -/
def qccComParse (token : Mem QByte) : Ptr → Option (Mem QByte × Ptr)
  | .null => some (token.store 0 0, .null)
  | .past => none
  | .text s => (skipWhite s).bind (readToken (token.store 0 0))

/-! ## The grammar -/

/-- `//` or `/*`. -/
def OpensComment (s : List QByte) : Prop := ∃ t, s = 0x2f :: 0x2f :: t ∨ s = 0x2f :: 0x2a :: t

/-- Whitespace, or a comment, and what is left. The `*` of `/*` may be the one of `*/`. -/
inductive Skip : List QByte → List QByte → Prop
  | white {c s} (h : qccIswhite c) : Skip (c :: s) s
  | line {body s} (hbody : 0x0a ∉ body) (hend : ∀ c ∈ s.head?, c = 0x0a) :
      Skip (0x2f :: 0x2f :: (body ++ s)) s
  | block {body s} (hopen : ∃ t, body ++ 0x2a :: 0x2f :: s = 0x2f :: 0x2a :: t)
      (hfirst : ¬[0x2a, 0x2f] <:+: body ++ [0x2a]) : Skip (body ++ 0x2a :: 0x2f :: s) s

/-- A string whose first characters are `acc`: all its characters, and what is left. A newline ends it
if the last character was a quote. -/
inductive Quoted : List QByte → List QByte → List QByte → List QByte → Prop
  | quote {acc s} : Quoted acc (0x22 :: s) acc s
  | newline {acc c s} (hc : c = 0x0a ∨ c = 0x0d) (hlast : acc.getLast? = some 0x22) : Quoted acc (c :: s) acc s
  | escape {acc c d s t out rest} (hc : escape c s = some (d, t)) (h : Quoted (acc ++ [d]) t out rest) :
      Quoted acc (c :: s) out rest
  | char {acc c s out rest} (hc : escape c s = none) (hquote : c ≠ 0x22)
      (hline : c = 0x0a ∨ c = 0x0d → acc.getLast? ≠ some 0x22) (h : Quoted (acc ++ [c]) s out rest) :
      Quoted acc (c :: s) out rest

/-- The first token of a text that begins with one, and what is left. -/
inductive Lexeme : List QByte → List QByte → Prop
  | quoted {s out t} (h : Quoted [] s out t) : Lexeme (0x22 :: s) t
  | single {c s} (h : Single c) : Lexeme (c :: s) s
  | word {c body s} (hc : ¬Delimits c) (hopen : ¬OpensComment (c :: (body ++ s)))
      (hbody : ∀ d ∈ body, ¬Delimits d) (hend : ∀ d ∈ s.head?, Delimits d) : Lexeme (c :: (body ++ s)) s

def Skips : List QByte → List QByte → Prop := Relation.ReflTransGen Skip

/-- The first token of a text. -/
def Token (s t : List QByte) : Prop := ∃ u, Skips s u ∧ Lexeme u t

/-- A comment before the first token is closed, and a string there is closed, and fits. -/
def WellFormed (s : List QByte) : Prop := ∀ u, Skips s u →
  (∀ t, u = 0x2f :: 0x2a :: t → [0x2a, 0x2f] <:+: u) ∧
  ∀ t, u = 0x22 :: t → ∃ out rest, Quoted [] t out rest ∧ out.length < tokenSize

/-! ## Whitespace and comments -/

section SkipWhite

variable {s t u : List QByte} {c : QByte}

theorem skipLine_append {body : List QByte} (hbody : 0x0a ∉ body) (hend : ∀ c ∈ s.head?, c = 0x0a) :
    skipLine (body ++ s) = s := by
  induction body with
  | nil =>
    cases s with
    | nil => rfl
    | cons c s =>
      obtain rfl : c = 0x0a := hend c rfl
      rfl
  | cons c body ih =>
    rw [mem_cons, not_or] at hbody
    rw [cons_append, skipLine, dropWhile_cons_of_pos (by simpa using Ne.symm hbody.1)]
    exact ih hbody.2

theorem skip_skipLine (s : List QByte) : Skip (0x2f :: 0x2f :: s) (skipLine s) := by
  have hline : Skip (0x2f :: 0x2f :: (s.takeWhile (· ≠ 0x0a) ++ skipLine s)) (skipLine s) := by
    refine .line (fun h => ?_) fun c hc => ?_
    · have hp := all_takeWhile (p := (· ≠ (0x0a : QByte))) (l := s)
      exact absurd (all_eq_true.1 hp _ h) (by simp)
    · have hp := head?_dropWhile_not (· ≠ (0x0a : QByte)) s
      rw [skipLine] at hc
      rw [mem_def.1 hc] at hp
      simpa using hp
  rwa [skipLine, takeWhile_append_dropWhile] at hline

/-- The end of a comment is the first `*/`. -/
theorem skipBlock_append {body : List QByte} (hfirst : ¬[0x2a, 0x2f] <:+: body ++ [0x2a]) :
    skipBlock (body ++ 0x2a :: 0x2f :: s) = some s := by
  induction body with
  | nil => rfl
  | cons a body ih =>
    have hrest : ¬[0x2a, 0x2f] <:+: body ++ [0x2a] :=
      fun h => hfirst (h.trans (suffix_cons a _).isInfix)
    obtain ⟨b, v, hv⟩ : ∃ b v, body ++ 0x2a :: 0x2f :: s = b :: v := by
      cases body with
      | nil => exact ⟨_, _, rfl⟩
      | cons b body => exact ⟨_, _, rfl⟩
    have hab : ¬(a = 0x2a ∧ b = 0x2f) := by
      rintro ⟨rfl, rfl⟩
      cases body with
      | nil => cases hv
      | cons b body =>
        cases hv
        exact hfirst ⟨[], body ++ [0x2a], rfl⟩
    rw [cons_append, hv, skipBlock, if_neg hab, ← hv, ih hrest]

theorem skipBlock_eq_some (h : skipBlock s = some t) :
    ∃ body, s = body ++ 0x2a :: 0x2f :: t ∧ ¬[0x2a, 0x2f] <:+: body ++ [0x2a] := by
  induction s with
  | nil => cases h
  | cons a s ih =>
    cases s with
    | nil => cases h
    | cons b s =>
      rw [skipBlock] at h
      split at h
      · rename_i hab
        cases h
        obtain ⟨rfl, rfl⟩ := hab
        exact ⟨[], rfl, fun hi => absurd hi.length_le (by decide)⟩
      · rename_i hab
        obtain ⟨body, hs, hfirst⟩ := ih h
        refine ⟨a :: body, by rw [hs, cons_append], fun hi => ?_⟩
        rcases infix_cons_iff.1 hi with hp | hi
        · -- it would begin with the characters that were looked at
          obtain ⟨v, hv⟩ := hp
          cases body with
          | nil =>
            obtain ⟨rfl, rfl⟩ : b = 0x2a ∧ s = 0x2f :: t := by simpa using hs
            simp at hv
          | cons d body =>
            obtain ⟨ha, hd⟩ := List.cons.inj hv
            exact hab ⟨ha.symm, (List.cons.inj hs).1.trans (List.cons.inj hd).1.symm⟩
        · exact hfirst hi

theorem skipBlock_eq_none (h : skipBlock s = none) : ¬[0x2a, 0x2f] <:+: s := by
  induction s with
  | nil => exact fun hi => absurd hi.length_le (by decide)
  | cons a s ih =>
    cases s with
    | nil =>
      intro hi
      have := hi.length_le
      simp at this
    | cons b s =>
      rw [skipBlock] at h
      split at h
      · cases h
      · rename_i hab
        intro hi
        rcases infix_cons_iff.1 hi with hp | hi
        · obtain ⟨v, hv⟩ := hp
          simp only [cons_append, nil_append, List.cons.injEq] at hv
          exact hab ⟨hv.1.symm, hv.2.1.symm⟩
        · exact ih h hi

theorem skipWhite_white (h : qccIswhite c) : skipWhite (c :: s) = skipWhite s := by
  rw [skipWhite, if_pos h]

theorem skipWhite_line : skipWhite (0x2f :: 0x2f :: s) = skipWhite (skipLine s) := by
  rw [skipWhite, if_neg (by decide), if_pos ⟨rfl, rfl⟩]
  rfl

theorem skipWhite_block :
    skipWhite (0x2f :: 0x2a :: s) = (skipBlock (0x2f :: 0x2a :: s)).bind skipWhite := by
  rw [skipWhite, if_neg (by decide), if_neg (by simp), if_pos ⟨rfl, rfl⟩]
  split
  · rename_i h
    rw [h]
    rfl
  · rename_i h
    rw [h]
    rfl

theorem skipWhite_token (hc : ¬qccIswhite c) (hopen : ¬OpensComment (c :: s)) :
    skipWhite (c :: s) = some (c :: s) := by
  have starts {d : QByte} (h : c = 0x2f ∧ s.head? = some d) : ∃ t, c :: s = 0x2f :: d :: t := by
    cases s with
    | nil => cases h.2
    | cons e s =>
      obtain ⟨rfl, he⟩ := h
      cases he
      exact ⟨s, rfl⟩
  rw [skipWhite, if_neg hc, if_neg, if_neg]
  · intro h
    obtain ⟨t, ht⟩ := starts h
    exact hopen ⟨t, .inr ht⟩
  · intro h
    obtain ⟨t, ht⟩ := starts h
    exact hopen ⟨t, .inl ht⟩

theorem skipWhite_of_skip (h : Skip s t) : skipWhite s = skipWhite t := by
  cases h with
  | white h => exact skipWhite_white h
  | line hbody hend => rw [skipWhite_line, skipLine_append hbody hend]
  | block hopen hfirst =>
    obtain ⟨v, hv⟩ := hopen
    rw [hv, skipWhite_block, ← hv, skipBlock_append hfirst, bind_some]

theorem skipWhite_of_skips (h : Skips s t) : skipWhite s = skipWhite t := by
  induction h with
  | refl => rfl
  | tail _ h ih => rw [ih, skipWhite_of_skip h]

/-- What is skipped, up to a token, the end of the text, or a comment that is not closed. -/
theorem skips_of_skipWhite (s : List QByte) : ∃ u, Skips s u ∧
    (skipWhite s = some u ∧ (u = [] ∨ ∃ c t, u = c :: t ∧ ¬qccIswhite c ∧ ¬OpensComment u) ∨
      skipWhite s = none ∧ ∃ t, u = 0x2f :: 0x2a :: t ∧ ¬[0x2a, 0x2f] <:+: u) := by
  induction hn : s.length using Nat.strong_induction_on generalizing s with
  | _ n ih =>
    have step {t : List QByte} (hs : Skip s t) (ht : t.length < n) : ∃ u, Skips s u ∧
        (skipWhite s = some u ∧ (u = [] ∨ ∃ c t, u = c :: t ∧ ¬qccIswhite c ∧ ¬OpensComment u) ∨
          skipWhite s = none ∧ ∃ t, u = 0x2f :: 0x2a :: t ∧ ¬[0x2a, 0x2f] <:+: u) := by
      obtain ⟨u, hu, hw⟩ := ih _ ht t rfl
      rw [← skipWhite_of_skip hs] at hw
      exact ⟨u, .head hs hu, hw⟩
    cases s with
    | nil => exact ⟨[], .refl, .inl ⟨by rw [skipWhite], .inl rfl⟩⟩
    | cons c s =>
      by_cases hc : qccIswhite c
      · exact step (.white hc) (by rw [← hn]; exact Nat.lt_succ_self _)
      by_cases hopen : OpensComment (c :: s)
      · obtain ⟨t, ht | ht⟩ := hopen
        · cases ht
          have hle : (skipLine t).length ≤ t.length := (dropWhile_suffix _).length_le
          refine step (skip_skipLine t) ?_
          simp only [length_cons] at hn
          omega
        · cases ht
          cases hb : skipBlock (0x2f :: 0x2a :: t) with
          | none =>
            refine ⟨_, .refl, .inr ⟨?_, t, rfl, skipBlock_eq_none hb⟩⟩
            rw [skipWhite_block, hb, bind_none]
          | some v =>
            obtain ⟨body, hbody, hfirst⟩ := skipBlock_eq_some hb
            refine step ?_ (hn ▸ length_skipBlock hb)
            rw [hbody]
            exact .block ⟨t, hbody.symm⟩ hfirst
      · exact ⟨_, .refl, .inl ⟨skipWhite_token hc hopen, .inr ⟨c, s, rfl, hc, hopen⟩⟩⟩

end SkipWhite

/-! ## Tokens -/

section Tokens

variable {s t out rest acc : List QByte} {c d : QByte} {token : Mem QByte} {len : ℕ} {r : Mem QByte × Ptr}

theorem endToken_of_lt (h : len < tokenSize) (data : Ptr) :
    endToken token len data = some (token.blit len [0], data) := by
  rw [endToken, Mem.put_of_lt h, map_some]

theorem endToken_of_le (h : tokenSize ≤ len) (data : Ptr) : endToken token len data = none := by
  rw [endToken, Mem.put_of_le h, map_none]

/-- There is no way out of a string that has left the token. -/
theorem quotedLoop_of_le (h : tokenSize ≤ len) : quotedLoop token len s = none := by
  fun_induction quotedLoop token len s with
  | case1 => exact endToken_of_le h _
  | case2 _ _ _ _ _ _ _ ih => exact ih (by omega)
  | case3 => exact endToken_of_le h _
  | case4 => rfl
  | case5 => exact endToken_of_le h _
  | case6 _ _ _ _ _ _ _ _ ih => exact ih (by omega)
  | case7 _ _ _ _ _ _ _ ih => exact ih (by omega)

/-- The characters of a string are in the token. -/
def Stored (token : Mem QByte) (acc : List QByte) : Prop := token.slice 0 acc.length = acc

theorem Stored.char (h : Stored token acc) (hlen : acc.length + 1 < tokenSize) (c : QByte) :
    Stored (storeChar token acc.length c) (acc ++ [c]) := by
  have hroom : ¬acc.length ≥ tokenSize - 1 := by omega
  rw [Stored, storeChar, if_neg hroom, length_append, length_singleton, Mem.store_eq_blit]
  have happend := Mem.slice_blit_append token 0 acc.length [c]
  rwa [h, Nat.zero_add] at happend

theorem Stored.endsInQuote (h : Stored token acc) (hlen : acc.length < tokenSize) :
    endsInQuote token acc.length = some (decide (acc.getLast? = some 0x22)) := by
  unfold EntityLump.endsInQuote
  rcases acc.eq_nil_or_concat' with rfl | ⟨init, x, rfl⟩
  · rfl
  · have hx : token init.length = x := by
      have hslice := Mem.slice_eq_iff.1 h init.length (by simp)
      simpa using hslice
    simp only [length_append, length_singleton] at hlen ⊢
    rw [if_neg (by omega), if_pos (by omega), Nat.add_sub_cancel, hx]
    simp

theorem quotedLoop_escape (h : escape c s = some (d, t)) :
    quotedLoop token len (c :: s) = quotedLoop (storeChar token len d) (len + 1) t := by
  rw [quotedLoop]
  split
  · rename_i h'
    cases h.symm.trans h'
    rfl
  · rename_i h'
    cases h.symm.trans h'

theorem quotedLoop_quote : quotedLoop token len (0x22 :: s) = endToken token len (.text s) := by
  have h : escape 0x22 s = none := by
    cases s with
    | nil => rfl
    | cons d s => simp [escape]
  rw [quotedLoop]
  split
  · rename_i h'
    cases h.symm.trans h'
  · rw [if_pos rfl]

/-- A character is stored, if it is no newline that ends the string. -/
theorem Stored.loop_char (hstored : Stored token acc) (hlen : acc.length < tokenSize)
    (h : escape c s = none) (hquote : c ≠ 0x22) : quotedLoop token acc.length (c :: s) =
      if (c = 0x0a ∨ c = 0x0d) ∧ acc.getLast? = some 0x22 then endToken token acc.length (.text s)
      else quotedLoop (storeChar token acc.length c) (acc.length + 1) s := by
  rw [quotedLoop]
  split
  · rename_i h'
    cases h.symm.trans h'
  · rw [if_neg hquote, hstored.endsInQuote hlen]
    by_cases hline : c = 0x0a ∨ c = 0x0d
    · rw [if_pos hline]
      by_cases hlast : acc.getLast? = some 0x22
      · rw [if_pos ⟨hline, hlast⟩, decide_eq_true hlast]
      · rw [if_neg fun h => hlast h.2, decide_eq_false hlast]
    · rw [if_neg hline, if_neg fun h => hline h.1]

theorem Quoted.length_le (h : Quoted acc s out rest) : acc.length ≤ out.length := by
  induction h with
  | quote => exact le_rfl
  | newline => exact le_rfl
  | escape _ _ ih =>
    rw [length_append] at ih
    exact (Nat.le_add_right _ _).trans ih
  | char _ _ _ _ ih =>
    rw [length_append] at ih
    exact (Nat.le_add_right _ _).trans ih

/-- The result of a loop that stops with the characters `out` in front of `rest`. -/
def Closes (out rest : List QByte) (r : Option (Mem QByte × Ptr)) : Prop :=
  if out.length < tokenSize then ∃ token, r = some (token, .text rest) ∧ token out.length = 0 else r = none

theorem closes_endToken (h : out.length < tokenSize) :
    Closes out rest (endToken token out.length (.text rest)) := by
  rw [Closes, if_pos h, endToken_of_lt h]
  exact ⟨_, rfl, by simp [Mem.blit]⟩

/-- One more character: the token still has room for it, or is left. -/
theorem Quoted.closes_next (h : Quoted (acc ++ [d]) t out rest) (hstored : Stored token acc)
    (ih : ∀ {token}, Stored token (acc ++ [d]) → (acc ++ [d]).length < tokenSize →
      Closes out rest (quotedLoop token (acc ++ [d]).length t)) :
    Closes out rest (quotedLoop (storeChar token acc.length d) (acc.length + 1) t) := by
  by_cases hroom : acc.length + 1 < tokenSize
  · have hloop := ih (hstored.char hroom d) (by simpa using hroom)
    rwa [length_append, length_singleton] at hloop
  · have hle := h.length_le
    rw [length_append, length_singleton] at hle
    rw [Closes, if_neg (by omega), quotedLoop_of_le (by omega)]

/-- A string that is closed is read to its end if it fits, and else the token is left. -/
theorem Quoted.closes (h : Quoted acc s out rest) (hstored : Stored token acc)
    (hlen : acc.length < tokenSize) : Closes out rest (quotedLoop token acc.length s) := by
  induction h generalizing token with
  | quote =>
    rw [quotedLoop_quote]
    exact closes_endToken hlen
  | @newline acc c s hc hlast =>
    have hesc : EntityLump.escape c s = none := by
      rcases hc with rfl | rfl <;> cases s <;> simp [EntityLump.escape]
    rw [hstored.loop_char hlen hesc (by rcases hc with rfl | rfl <;> decide), if_pos ⟨hc, hlast⟩]
    exact closes_endToken hlen
  | escape hc h ih =>
    rw [quotedLoop_escape hc]
    exact h.closes_next hstored ih
  | char hc hquote hline h ih =>
    rw [hstored.loop_char hlen hc hquote, if_neg fun hl => hline hl.1 hl.2]
    exact h.closes_next hstored ih

/-- A loop that does not stop behind the text has read a closed string that fits. -/
theorem quoted_of_loop (hstored : Stored token acc) (hlen : acc.length < tokenSize)
    (h : quotedLoop token acc.length s = some r) :
    r.2 = .past ∨ ∃ out rest, Quoted acc s out rest ∧ out.length < tokenSize := by
  induction hn : s.length using Nat.strong_induction_on generalizing s acc token with
  | _ n ih =>
    have next {d : QByte} {t : List QByte} (ht : t.length < n)
        (h : quotedLoop (storeChar token acc.length d) (acc.length + 1) t = some r) :
        r.2 = .past ∨ ∃ out rest, Quoted (acc ++ [d]) t out rest ∧ out.length < tokenSize := by
      by_cases hroom : acc.length + 1 < tokenSize
      · refine ih _ ht (hstored.char hroom d) (by simpa using hroom) ?_ rfl
        rwa [length_append, length_singleton]
      · rw [quotedLoop_of_le (by omega)] at h
        cases h
    cases s with
    | nil =>
      rw [quotedLoop, endToken_of_lt hlen] at h
      cases h
      exact .inl rfl
    | cons c s =>
      rw [length_cons] at hn
      cases hesc : escape c s with
      | some x =>
        obtain ⟨d, t⟩ := x
        have ht := length_escape hesc
        rw [quotedLoop_escape hesc] at h
        refine (next (by omega) h).imp_right ?_
        rintro ⟨out, rest, hq, hfit⟩
        exact ⟨out, rest, .escape hesc hq, hfit⟩
      | none =>
        by_cases hquote : c = 0x22
        · subst hquote
          exact .inr ⟨acc, s, .quote, hlen⟩
        rw [hstored.loop_char hlen hesc hquote] at h
        by_cases hend : (c = 0x0a ∨ c = 0x0d) ∧ acc.getLast? = some 0x22
        · exact .inr ⟨acc, s, .newline hend.1 hend.2, hlen⟩
        · rw [if_neg hend] at h
          refine (next (by omega) h).imp_right ?_
          rintro ⟨out, rest, hq, hfit⟩
          exact ⟨out, rest, .char hesc hquote (fun hl hlast => hend ⟨hl, hlast⟩) hq, hfit⟩

/-- A call that has read a token: it is terminated, and the pointer is to what is left. -/
def Reads (t : List QByte) (r : Option (Mem QByte × Ptr)) : Prop :=
  ∃ token, r = some (token, .text t) ∧ ∃ k < tokenSize, token k = 0

theorem reads_endToken (h : len < tokenSize) : Reads t (endToken token len (.text t)) :=
  ⟨_, endToken_of_lt h _, len, h, by simp [Mem.blit]⟩

theorem Closes.reads {o : Option (Mem QByte × Ptr)} (h : Closes out rest o) (hfit : out.length < tokenSize) :
    Reads rest o := by
  rw [Closes, if_pos hfit] at h
  obtain ⟨token, ho, hzero⟩ := h
  exact ⟨token, ho, out.length, hfit, hzero⟩

/-- A word ends at the first character that delimits it, however long it is. -/
theorem wordLoop_reads {body : List QByte} (hbody : ∀ d ∈ body, ¬Delimits d)
    (hend : ∀ d ∈ s.head?, Delimits d) (hlen : len < tokenSize) : Reads s (wordLoop token len c (body ++ s)) := by
  induction body generalizing token len c with
  | nil =>
    have hnext : (if len ≥ tokenSize - 1 then len else len + 1) < tokenSize := by
      split <;> omega
    cases s with
    | nil => exact reads_endToken hnext
    | cons d s =>
      rw [nil_append, wordLoop, if_pos (hend d rfl)]
      exact reads_endToken hnext
  | cons d body ih =>
    rw [cons_append, wordLoop, if_neg (hbody d mem_cons_self)]
    refine ih (fun e he => hbody e (mem_cons_of_mem d he)) ?_
    split <;> omega

theorem readToken_single (hquote : c ≠ 0x22) (h : Single c) : Reads s (readToken token (c :: s)) := by
  rw [readToken, if_neg hquote, if_pos h]
  exact reads_endToken (by decide)

theorem not_quote_of_single (h : Single c) : c ≠ 0x22 := by
  rcases h with rfl | rfl | rfl | rfl | rfl | rfl | rfl <;> decide

/-- Where a text begins with a token, whitespace and comments are skipped. -/
theorem Lexeme.skipWhite_eq (h : Lexeme s t) : skipWhite s = some s := by
  have plain {c : QByte} {s : List QByte} (hw : ¬qccIswhite c) (hc : c ≠ 0x2f) :
      skipWhite (c :: s) = some (c :: s) := by
    refine skipWhite_token hw ?_
    rintro ⟨t, ht | ht⟩ <;> exact hc (List.cons.inj ht).1
  cases h with
  | quoted => exact plain (by decide) (by decide)
  | single h =>
    rcases h with rfl | rfl | rfl | rfl | rfl | rfl | rfl <;> exact plain (by decide) (by decide)
  | word hc hopen => exact skipWhite_token (fun hw => hc (.inr (.inr hw))) hopen

/-- What is read of a token of the grammar, unless the token is left. -/
theorem Lexeme.readToken (h : Lexeme s t) (hr : EntityLump.readToken token s = some r) : r.2 = .text t := by
  have reads {o : Option (Mem QByte × Ptr)} (ho : Reads t o) (hr : o = some r) : r.2 = .text t := by
    obtain ⟨token, ho, -⟩ := ho
    cases ho.symm.trans hr
    rfl
  cases h with
  | @quoted s out t h =>
    rw [EntityLump.readToken, if_pos rfl] at hr
    have hcloses := h.closes (show Stored token [] from rfl) (by decide)
    by_cases hfit : out.length < tokenSize
    · exact reads (hcloses.reads hfit) hr
    · rw [Closes, if_neg hfit] at hcloses
      cases hcloses.symm.trans hr
  | single h => exact reads (readToken_single (not_quote_of_single h) h) hr
  | word hc hopen hbody hend =>
    rw [EntityLump.readToken, if_neg fun h => hc (.inr (.inl h)), if_neg fun h => hc (.inl h)] at hr
    exact reads (wordLoop_reads hbody hend (by decide)) hr

theorem Token.call (h : Token s t) (hr : qccComParse token (.text s) = some r) : r.2 = .text t := by
  obtain ⟨u, hu, hlex⟩ := h
  rw [qccComParse, skipWhite_of_skips hu, hlex.skipWhite_eq, bind_some] at hr
  exact hlex.readToken hr

theorem Skip.suffix (h : Skip s t) : t <:+ s := by
  cases h with
  | white => exact suffix_cons _ _
  | @line body => exact ⟨0x2f :: 0x2f :: body, rfl⟩
  | @block body => exact ⟨body ++ [0x2a, 0x2f], by simp⟩

theorem Skips.suffix (h : Skips s t) : t <:+ s := by
  induction h with
  | refl => exact suffix_rfl
  | tail _ h ih => exact h.suffix.trans ih

theorem Quoted.suffix (h : Quoted acc s out rest) : rest <:+ s := by
  induction h with
  | quote => exact suffix_cons _ _
  | newline => exact suffix_cons _ _
  | escape hc _ ih =>
    obtain ⟨e, rfl⟩ := escape_eq hc
    exact ih.trans ((suffix_cons e _).trans (suffix_cons _ _))
  | char _ _ _ _ ih => exact ih.trans (suffix_cons _ _)

/-- A token takes something of the text. -/
theorem Lexeme.suffix (h : Lexeme s t) : ∃ c u, s = c :: u ∧ t <:+ u := by
  cases h with
  | quoted h => exact ⟨_, _, rfl, h.suffix⟩
  | single => exact ⟨_, _, rfl, suffix_rfl⟩
  | word => exact ⟨_, _, rfl, suffix_append _ _⟩

theorem Token.suffix (h : Token s t) : t <:+ s ∧ t.length < s.length := by
  obtain ⟨u, hu, hlex⟩ := h
  obtain ⟨c, v, rfl, hv⟩ := hlex.suffix
  refine ⟨(hv.trans (suffix_cons c v)).trans hu.suffix, ?_⟩
  have hle := hu.suffix.length_le
  rw [length_cons] at hle
  exact Nat.lt_of_lt_of_le (Nat.lt_succ_of_le hv.length_le) hle

end Tokens

/-! ## Calls until the end of the text -/

section Calls

variable {s t u : List QByte} {c : QByte} {token : Mem QByte}

/-- A text that begins with a token, which is closed and fits if it is a string. -/
theorem exists_lexeme (token : Mem QByte) (hw : ¬qccIswhite c) (hopen : ¬OpensComment (c :: s))
    (hstring : c = 0x22 → ∃ out rest, Quoted [] s out rest ∧ out.length < tokenSize) :
    ∃ t, Lexeme (c :: s) t ∧ Reads t (readToken token (c :: s)) := by
  by_cases hquote : c = 0x22
  · subst hquote
    obtain ⟨out, rest, hq, hfit⟩ := hstring rfl
    refine ⟨rest, .quoted hq, ?_⟩
    rw [readToken, if_pos rfl]
    exact (hq.closes rfl (by decide)).reads hfit
  by_cases hsingle : Single c
  · exact ⟨s, .single hsingle, readToken_single hquote hsingle⟩
  -- the rest is a word up to the first character that delimits it
  have hc : ¬Delimits c := by
    rintro (h | h | h)
    exacts [hsingle h, hquote h, hw h]
  have hbody : ∀ d ∈ s.takeWhile (¬Delimits ·), ¬Delimits d := fun d hd =>
    of_decide_eq_true (all_eq_true.1 all_takeWhile d hd)
  have hend : ∀ d ∈ (s.dropWhile (¬Delimits ·)).head?, Delimits d := by
    intro d hd
    have hp := head?_dropWhile_not (fun d => decide ¬Delimits d) s
    rw [mem_def.1 hd] at hp
    simpa using hp
  have hs : s.takeWhile (¬Delimits ·) ++ s.dropWhile (¬Delimits ·) = s := takeWhile_append_dropWhile
  refine ⟨s.dropWhile (¬Delimits ·), ?_, ?_⟩
  · have hword := Lexeme.word hc (by rwa [hs]) hbody hend
    rwa [hs] at hword
  · have hword : Reads (s.dropWhile (¬Delimits ·)) (wordLoop token 0 c _) := wordLoop_reads hbody hend (by decide)
    rw [hs] at hword
    rwa [readToken, if_neg hquote, if_neg hsingle]

/-- **A call on a well-formed text.** It ends the token, and returns `NULL` or what the grammar leaves. -/
theorem qccComParse_wellFormed (h : WellFormed s) (token : Mem QByte) :
    ∃ r, qccComParse token (.text s) = some r ∧ (∃ k < tokenSize, r.1 k = 0) ∧
      (r.2 = .null ∨ ∃ t, r.2 = .text t ∧ Token s t) := by
  obtain ⟨u, hu, ⟨hskip, hstart⟩ | ⟨-, t, ht, hopen⟩⟩ := skips_of_skipWhite s
  · have hcall : qccComParse token (.text s) = readToken (token.store 0 0) u := by
      rw [qccComParse, hskip, bind_some]
    rcases hstart with rfl | ⟨c, v, rfl, hw, hopen⟩
    · exact ⟨_, hcall, ⟨0, by decide, by simp [Mem.store]⟩, .inl rfl⟩
    · obtain ⟨t, hlex, token', hr, hzero⟩ := exists_lexeme (token.store 0 0) hw hopen
        fun hc => (h _ hu).2 v (by rw [hc])
      exact ⟨_, hcall.trans hr, hzero, .inr ⟨t, rfl, _, hu, hlex⟩⟩
  · exact absurd ((h u hu).1 t ht) hopen

/-- One call after another. -/
def Step (w w' : Mem QByte × Ptr) : Prop := w.2 ≠ .null ∧ qccComParse w.1 w.2 = some w'

def Called (s : List QByte) (token : Mem QByte) : Mem QByte × Ptr → Prop :=
  Relation.ReflTransGen Step (token, .text s)

/-- Calls until `NULL` stay in the text, every one with less of it left, and in the token, which they
end. -/
def Safe (s : List QByte) : Prop := ∀ token w, Called s token w →
  w.2 = .null ∨ ∃ t, w.2 = .text t ∧ t <:+ s ∧
    ∃ r, qccComParse w.1 w.2 = some r ∧ (∃ k < tokenSize, r.1 k = 0) ∧
      ∀ u, r.2 = .text u → u.length < t.length

/-- What is left after some tokens. -/
def Lexed : List QByte → List QByte → Prop := Relation.ReflTransGen Token

/-- The calls reach what is left after every token. -/
theorem Safe.called (h : Safe s) (ht : Lexed s t) (token : Mem QByte) :
    ∃ token', Called s token (token', .text t) := by
  induction ht with
  | refl => exact ⟨token, .refl⟩
  | tail _ htoken ih =>
    obtain ⟨token', hw⟩ := ih
    obtain hnull | ⟨v, hv, -, r, hr, -⟩ := h token _ hw
    · cases hnull
    · have hu := htoken.call hr
      refine ⟨r.1, hw.tail ⟨nofun, ?_⟩⟩
      rw [hr, ← hu]

/-- A text on which a call and the one after it are safe. -/
theorem Safe.wellFormed (h : Safe s) (ht : Lexed s t) : WellFormed t := by
  obtain ⟨token, hw⟩ := h.called ht (fun _ => 0)
  obtain hnull | ⟨v, hv, -, r, hr, -⟩ := h _ _ hw
  · cases hnull
  intro u hu
  have hcall : (skipWhite u).bind (readToken (token.store 0 0)) = some r := by
    rw [← skipWhite_of_skips hu]
    exact hr
  constructor
  · rintro v rfl
    by_contra hopen
    cases hb : skipBlock (0x2f :: 0x2a :: v) with
    | none =>
      rw [skipWhite_block, hb] at hcall
      cases hcall
    | some x =>
      obtain ⟨body, hbody, -⟩ := skipBlock_eq_some hb
      exact hopen ⟨body, x, by rw [hbody]; simp⟩
  · rintro v rfl
    have hopen : ¬OpensComment (0x22 :: v) := by
      rintro ⟨x, hx | hx⟩ <;> cases hx
    rw [skipWhite_token (by decide) hopen, bind_some, readToken, if_pos rfl] at hcall
    refine (quoted_of_loop (show Stored _ [] from rfl) (by decide) hcall).resolve_left fun hpast => ?_
    -- the next call would read behind the terminator
    obtain hnull | ⟨x, hx, -⟩ := h _ r (hw.tail ⟨nofun, hr⟩)
    · rw [hpast] at hnull
      cases hnull
    · rw [hpast] at hx
      cases hx

/-- **The bounds of `QCC_COM_Parse`.** Calls on a text are safe exactly if it is well formed wherever a
token of it ends. -/
theorem safe_iff : Safe s ↔ ∀ t, Lexed s t → WellFormed t := by
  constructor
  · exact fun h t ht => h.wellFormed ht
  · intro h token w hw
    have key : w.2 = .null ∨ ∃ t, w.2 = .text t ∧ Lexed s t ∧ t <:+ s := by
      induction hw with
      | refl => exact .inr ⟨s, rfl, .refl, List.suffix_rfl⟩
      | @tail v w _ hstep ih =>
        obtain hnull | ⟨t, ht, hlex, hsuffix⟩ := ih
        · exact absurd hnull hstep.1
        · obtain ⟨-, hcall⟩ := hstep
          rw [ht] at hcall
          obtain ⟨r, hr, -, hnext⟩ := qccComParse_wellFormed (h t hlex) v.1
          cases hr.symm.trans hcall
          refine hnext.imp_right ?_
          rintro ⟨u, hu, htoken⟩
          exact ⟨u, hu, hlex.tail htoken, htoken.suffix.1.trans hsuffix⟩
    refine key.imp_right ?_
    rintro ⟨t, ht, hlex, hsuffix⟩
    obtain ⟨r, hr, hzero, hnext⟩ := qccComParse_wellFormed (h t hlex) w.1
    refine ⟨t, ht, hsuffix, r, ht ▸ hr, hzero, fun u hu => ?_⟩
    obtain hnull | ⟨v, hv, htoken⟩ := hnext
    · rw [hnull] at hu
      cases hu
    · cases hv.symm.trans hu
      exact htoken.suffix.2

/-- A string of letters has as many characters. -/
theorem length_of_quoted_replicate {acc out rest : List QByte} {n : ℕ}
    (h : Quoted acc (List.replicate n 0x61 ++ [0x22]) out rest) : out.length = acc.length + n := by
  induction n generalizing acc with
  | zero =>
    cases h with
    | quote => rfl
    | newline hc => rcases hc with hc | hc <;> cases hc
    | escape hc => cases hc
    | char _ hquote => exact absurd rfl hquote
  | succ n ih =>
    rw [replicate_succ, cons_append] at h
    cases h with
    | newline hc => rcases hc with hc | hc <;> cases hc
    | escape hc =>
      unfold escape at hc
      grind
    | char _ _ _ h =>
      rw [ih h, length_append, length_singleton]
      omega

/-- A quote and a comment that are not closed, and a string that does not fit. -/
theorem not_safe : ¬Safe [0x22] ∧ ¬Safe [0x2f, 0x2a] ∧
    ¬Safe (0x22 :: (List.replicate 1024 0x61 ++ [0x22])) := by
  refine ⟨fun h => ?_, fun h => ?_, fun h => ?_⟩
  · obtain ⟨out, rest, hq, -⟩ := (h.wellFormed .refl [0x22] .refl).2 [] rfl
    cases hq
  · have hclosed := (h.wellFormed .refl [0x2f, 0x2a] .refl).1 [] rfl
    revert hclosed
    decide
  · obtain ⟨out, rest, hq, hfit⟩ := (h.wellFormed .refl _ .refl).2 _ rfl
    rw [length_of_quoted_replicate hq, tokenSize] at hfit
    simp at hfit

end Calls

end EntityLump

end FteQuake
