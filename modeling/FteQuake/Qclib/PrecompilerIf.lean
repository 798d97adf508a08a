import FteQuake.Common.JsonTree
import FteQuake.Lib.Precedence
import Mathlib.Data.List.DropRight
import Mathlib.Data.List.Find

/-!
# Conditions of the preprocessor

`ParsePrecompilerIf` of `qclib/qcc_pr_lex.c`, which evaluates what is behind `#if` and `#elif`, with
`QCC_PR_SimpleGetToken`. A text is what is left of the source, up to its terminator.

Expressions are terms with operators between them, with blanks where they are needed. The parser knows two priorities,
the comparisons and behind them `&&` and `||`, and applies equal ones from the right: `readsAt`. Where no two comparisons
stand next to each other and no `&&` before an `||`, that is the value in C.
-/

namespace FteQuake

open List
open Option (some.inj)

namespace PrecompilerIf

open Precedence JsonTree

/-! ## The code -/

/-- `qcc_iswhite`, without the end of a line. -/
def isBlank (c : QByte) : Bool := c = 0x20 || c = 0x0d || c = 0x09 || c = 0x0b

/-- A space or a tab. -/
def isSpace (c : QByte) : Bool := c = 0x20 || c = 0x09

/-- How the parser can fail: an error is reported, or it needs more fuel. -/
inductive Stop
  | unclosedBracket
  | unclosedDefined
  | endOfLine
  | tokenTooLong
  | fuel

/-- The rest of `pr_file_p` from a comment on. -/
def skipLine (s : List QByte) : List QByte := s.dropWhile (· ≠ 0x0a)

/-- The loop of `QCC_PR_SimpleGetToken` over a token. -/
def takeToken : List QByte → List QByte × List QByte
  | [] => ([], [])
  | c :: s =>
    if isBlank c ∨ c = 0x0a ∨ c = 0x2c ∨ c = 0x3b ∨ c = 0x29 ∨ c = 0x28 ∨ c = 0x5d ∨ (c = 0x2f ∧ s.head? = some 0x2f) then
      ([], c :: s)
    else (c :: (takeToken s).1, (takeToken s).2)

/-- `QCC_PR_SimpleGetToken`: `pr_token`, empty if there is none, and what is behind it. -/
def simpleGetToken (s : List QByte) : Except Stop (List QByte × List QByte) :=
  let s := s.dropWhile isBlank
  if [0x2f, 0x2f] <+: s then .ok ([], skipLine s)
  else if [0x2f, 0x2a] <+: s ∨ s.head? = some 0x0a then .ok ([], s)
  else if (takeToken s).1.length < 1024 then .ok (takeToken s) else .error .tokenTooLong

def boolInt (b : Bool) : ℤ := if b then 1 else 0

inductive Op
  | or
  | and
  | le
  | ge
  | lt
  | gt
  | ne
  | eq
  deriving DecidableEq

namespace Op

def text : Op → List QByte
  | or => [0x7c, 0x7c]
  | and => [0x26, 0x26]
  | le => [0x3c, 0x3d]
  | ge => [0x3e, 0x3d]
  | lt => [0x3c]
  | gt => [0x3e]
  | ne => [0x21, 0x3d]
  | eq => [0x3d, 0x3d]

/-- What an operator does with the values to its sides. -/
def apply (o : Op) (eval right : ℤ) : ℤ :=
  boolInt <| match o with
    | or => right ≠ 0 || eval ≠ 0
    | and => right ≠ 0 && eval ≠ 0
    | le => eval ≤ right
    | ge => eval ≥ right
    | lt => eval < right
    | gt => eval > right
    | ne => eval ≠ right
    | eq => eval = right

end Op

/-- The operators of a level, in the order of the tests. -/
def levelOps : ℕ → List Op
  | 3 => [.le, .ge, .lt, .gt, .ne, .eq]
  | 4 => [.or, .and]
  | _ => []

/-- The operator of a level that comes next. -/
def findOp (level : ℕ) (s : List QByte) : Option Op := (levelOps level).find? fun o => o.text <+: s

/-- `defined`. -/
def definedName : List QByte := [0x64, 0x65, 0x66, 0x69, 0x6e, 0x65, 0x64]

variable (consts : List QByte → Option (List QByte))

/-- `defined`, with what is behind its name. `consts` are the values of the constants that are defined. -/
def parseDefined (s : List QByte) : Except Stop (ℤ × List QByte) :=
  let s := s.dropWhile isSpace
  if s.head? = some 0x28 then
    (simpleGetToken s.tail).bind fun r =>
      let s := r.2.dropWhile isSpace
      if s.head? = some 0x29 then .ok (boolInt (consts r.1).isSome, s.tail) else .error .unclosedDefined
  else (simpleGetToken s).map fun r => (boolInt (consts r.1).isSome, r.2)

/-- A name or a number. -/
def parseToken (s : List QByte) : Except Stop (ℤ × List QByte) :=
  (simpleGetToken s).bind fun r =>
    if r.1 = [] then .error .endOfLine else .ok (atoi ((consts r.1).getD r.1), r.2)

/-- `ParsePrecompilerIf`. The levels are `PPI_VALUE` to `PPI_TOPLEVEL`. -/
def parsePrecompilerIf : ℕ → ℕ → List QByte → Except Stop (ℤ × List QByte)
  | 0, _, _ => .error .fuel
  | fuel + 1, 0, s =>
    let s := s.dropWhile isBlank
    if s.head? = some 0x28 then
      (parsePrecompilerIf fuel 5 s.tail).bind fun r =>
        let s := r.2.dropWhile isSpace
        if s.head? = some 0x29 then .ok (r.1, s.tail) else .error .unclosedBracket
    else if s.head? = some 0x21 then (parsePrecompilerIf fuel 1 s.tail).map fun r => (boolInt (r.1 = 0), r.2)
    else if definedName <+: s then parseDefined consts (s.drop 7)
    else parseToken consts s
  | fuel + 1, level + 1, s =>
    (parsePrecompilerIf fuel level s).bind fun r =>
      let s := r.2.dropWhile isBlank
      match findOp (level + 1) s with
      | none => .ok (r.1, s)
      | some o =>
        (parsePrecompilerIf fuel (level + 1) (s.drop o.text.length)).map fun r' => (o.apply r.1 r'.1, r'.2)

/-! ## Expressions -/

/-- Spaces and tabs. -/
def Gap := { g : List QByte // ∀ c ∈ g, isSpace c = true }

/-- Letters, digits and underscores, and the sign of a number. -/
def isNameByte (c : QByte) : Bool :=
  (0x41 ≤ c && c ≤ 0x5a) || (0x61 ≤ c && c ≤ 0x7a) || (0x30 ≤ c && c ≤ 0x39) || c = 0x5f || c = 0x2d

/-- A name, or a number with its sign. -/
def Name := { d : List QByte // d ≠ [] ∧ (∀ c ∈ d, isNameByte c = true) ∧ d.length < 1024 ∧
  0x2d ∉ d.tail ∧ (d.head? = some 0x2d → ∃ c ∈ d.tail.head?, 0x30 ≤ c ∧ c ≤ 0x39) }

mutual

inductive Term
  | name (d : Name)
  | defined (gap : Gap) (d : Name)
  | definedParens (before inner behind : Gap) (d : Name)
  | not (gap : Gap) (t : Term)
  | parens (before : Gap) (e : Expr) (behind : Gap)

/-- Terms with operators between them. -/
inductive Expr
  | term (t : Term)
  | chain (t : Term) (before : Gap) (o : Op) (behind : Gap) (e : Expr)

end

mutual

def Term.text : Term → List QByte
  | .name d => d.1
  | .defined gap d => definedName ++ (gap.1 ++ d.1)
  | .definedParens before inner behind d => definedName ++ (before.1 ++ 0x28 :: (inner.1 ++ (d.1 ++ (behind.1 ++ [0x29]))))
  | .not gap t => 0x21 :: (gap.1 ++ t.text)
  | .parens before e behind => 0x28 :: (before.1 ++ (e.text ++ (behind.1 ++ [0x29])))

def Expr.text : Expr → List QByte
  | .term t => t.text
  | .chain t before o behind e => t.text ++ (before.1 ++ (o.text ++ (behind.1 ++ e.text)))

end

/-- Whether a term ends with a name, so that a blank has to follow. -/
def Term.EndsOpen : Term → Prop
  | .name _ => True
  | .defined _ _ => True
  | .definedParens _ _ _ _ => False
  | .not _ t => t.EndsOpen
  | .parens _ _ _ => False

mutual

/-- There are blanks behind names, and no name begins like `defined`. -/
def Term.Spaced : Term → Prop
  | .name d => ¬ definedName <+: d.1
  | .defined gap _ => gap.1 ≠ []
  | .definedParens _ _ _ _ => True
  | .not _ t => t.Spaced
  | .parens _ e _ => e.Spaced

/-- There are blanks behind names, and no name begins like `defined`. -/
def Expr.Spaced : Expr → Prop
  | .term t => t.Spaced
  | .chain t before _ _ e => t.Spaced ∧ (t.EndsOpen → before.1 ≠ []) ∧ e.Spaced

end

def Expr.ops : Expr → List Op
  | .term _ => []
  | .chain _ _ o _ e => o :: e.ops

section Value

variable (run : ℤ × List (Op × ℤ) → ℤ)

mutual

/-- The value of a term, where `run` is that of a chain. -/
def Term.value : Term → ℤ
  | .name d => atoi ((consts d.1).getD d.1)
  | .defined _ d => boolInt (consts d.1).isSome
  | .definedParens _ _ _ d => boolInt (consts d.1).isSome
  | .not _ t => boolInt (t.value = 0)
  | .parens _ e _ => run e.flat

/-- The values of the terms, with the operators between them. -/
def Expr.flat : Expr → ℤ × List (Op × ℤ)
  | .term t => (t.value, [])
  | .chain t _ o _ e => (t.value, (o, e.flat.1) :: e.flat.2)

end

end Value

/-- The level of an operator. -/
def Op.level (o : Op) : ℕ := if o = .or ∨ o = .and then 4 else 3

/-- The priority of an operator in C. -/
def Op.cPri : Op → ℕ
  | .lt | .le | .gt | .ge => 0
  | .eq | .ne => 1
  | .and => 2
  | .or => 3

/-- The value of a chain with the operators of a level applied from the right. -/
def rightValue (c : ℤ × List (Op × ℤ)) : ℤ := (right Op.level Op.apply 6 c).1

/-- The value of a chain in C. -/
def cChain (c : ℤ × List (Op × ℤ)) : ℤ := (left Op.cPri Op.apply 4 c).1

/-- The value of an expression in C. -/
def Expr.cValue (e : Expr) : ℤ := cChain (e.flat consts cChain)

/-- No two comparisons are next to each other, and no `&&` is before an `||`. -/
def Grouped : List Op → Prop
  | [] => True
  | .or :: os => Grouped os
  | .and :: os => Op.or ∉ os ∧ Grouped os
  | _ :: os => (∀ o ∈ os.head?, o = .or ∨ o = .and) ∧ Grouped os

mutual

/-- In all parentheses, no two comparisons are next to each other, and no `&&` is before an `||`. -/
def Term.Plain : Term → Prop
  | .name _ => True
  | .defined _ _ => True
  | .definedParens _ _ _ _ => True
  | .not _ t => t.Plain
  | .parens _ e _ => Grouped e.ops ∧ e.TermsPlain

def Expr.TermsPlain : Expr → Prop
  | .term t => t.Plain
  | .chain t _ _ _ e => t.Plain ∧ e.TermsPlain

end

/-- No two comparisons are next to each other, and no `&&` is before an `||`. -/
def Expr.Plain (e : Expr) : Prop := Grouped e.ops ∧ e.TermsPlain

/-! ## Tokens -/

section Tokens

/-- A token ends there. -/
def Stops (s : List QByte) : Prop := takeToken s = ([], s)

variable {s tail : List QByte} {c : QByte}

theorem isBlank_of_isSpace (h : isSpace c = true) : isBlank c = true := by
  have hc : c = 0x20 ∨ c = 0x09 := by simpa [isSpace] using h
  rcases hc with hc | hc <;> rw [hc] <;> rfl

theorem stops_nil : Stops [] := rfl

theorem stops_cons (h : isBlank c = true ∨ c = 0x0a ∨ c = 0x29) : Stops (c :: s) := by
  rw [Stops, takeToken, if_pos]
  rcases h with h | h | h
  · exact .inl h
  · exact .inr (.inl h)
  · exact .inr (.inr (.inr (.inr (.inl h))))

theorem stops_comment : Stops (0x2f :: 0x2f :: s) := by
  rw [Stops, takeToken, if_pos (by simp)]

/-- Bytes that are not in names. -/
def notInNames : List QByte := [0x20, 0x0d, 0x09, 0x0b, 0x0a, 0x2c, 0x3b, 0x29, 0x28, 0x5d, 0x2f, 0x21, 0x3d]

theorem ne_of_isNameByte (hc : isNameByte c = true) : ∀ d ∈ notInNames, c ≠ d := by
  have hnot : ∀ d ∈ notInNames, isNameByte d = false := by decide
  intro d hd hcd
  have hd' := hnot d hd
  rw [← hcd, hc] at hd'
  cases hd'

theorem isBlank_of_isNameByte (hc : isNameByte c = true) : isBlank c = false := by
  rw [← Bool.not_eq_true]
  intro hblank
  have hcases : ((c = 0x20 ∨ c = 0x0d) ∨ c = 0x09) ∨ c = 0x0b := by simpa [isBlank] using hblank
  rcases hcases with ((h | h) | h) | h
  all_goals exact ne_of_isNameByte hc c (by simp [h, notInNames]) rfl

theorem takeToken_append {d : List QByte} (hd : ∀ c ∈ d, isNameByte c = true) (s : List QByte) :
    takeToken (d ++ s) = (d ++ (takeToken s).1, (takeToken s).2) := by
  induction d with
  | nil => rfl
  | cons c d ih =>
    have hblank := isBlank_of_isNameByte (hd c (.head _))
    have hne := ne_of_isNameByte (hd c (.head _))
    rw [cons_append, takeToken, if_neg, ih fun c hc => hd c (.tail _ hc)]
    · rfl
    rintro (h | h | h | h | h | h | h | ⟨h, -⟩)
    · rw [hblank] at h
      cases h
    all_goals exact hne _ (by simp [notInNames]) h

theorem dropWhile_gap (g : Gap) (s : List QByte) : (g.1 ++ s).dropWhile isBlank = s.dropWhile isBlank :=
  dropWhile_append_of_pos fun c hc => isBlank_of_isSpace (g.2 c hc)

theorem dropWhile_space (g : Gap) (s : List QByte) : (g.1 ++ s).dropWhile isSpace = s.dropWhile isSpace :=
  dropWhile_append_of_pos g.2

/-- A name is one token. -/
theorem simpleGetToken_name (g : Gap) (d : Name) (htail : Stops tail) :
    simpleGetToken (g.1 ++ (d.1 ++ tail)) = .ok (d.1, tail) := by
  obtain ⟨c, s, hcons⟩ := exists_cons_of_ne_nil d.2.1
  have hc := d.2.2.1 c (hcons ▸ mem_cons_self)
  have hblank := isBlank_of_isNameByte hc
  have hne := ne_of_isNameByte hc
  have htake : takeToken (d.1 ++ tail) = (d.1, tail) := by rw [takeToken_append d.2.2.1, htail, append_nil]
  have hlen := d.2.2.2.1
  rw [hcons] at htake hlen ⊢
  rw [simpleGetToken, dropWhile_gap, cons_append, dropWhile_cons_of_neg (by simp [hblank])]
  have hslash : ∀ x xs, ¬ 0x2f :: x <+: c :: xs := fun _ _ h =>
    hne 0x2f (by simp [notInNames]) (List.cons_prefix_cons.mp h).1.symm
  rw [if_neg (hslash _ _), if_neg (not_or.mpr ⟨hslash _ _, fun (h : (c :: (s ++ tail)).head? = _) =>
    hne 0x0a (by simp [notInNames]) (some.inj h)⟩), ← cons_append, htake, if_pos hlen]

theorem simpleGetToken_name' (d : Name) (htail : Stops tail) : simpleGetToken (d.1 ++ tail) = .ok (d.1, tail) :=
  simpleGetToken_name ⟨[], fun _ h => nomatch h⟩ d htail

/-- A name is not in part `defined`. -/
theorem not_definedName {d : Name} (hd : ¬ definedName <+: d.1) (htail : Stops tail) : ¬ definedName <+: d.1 ++ tail := by
  rintro ⟨u, hu⟩
  have htake := congrArg (fun s => (takeToken s).1) hu
  rw [takeToken_append d.2.2.1, takeToken_append (show ∀ c ∈ definedName, isNameByte c = true by decide), htail,
    append_nil] at htake
  exact hd ⟨_, htake⟩

/-- The first byte of a name. -/
theorem Name.head (d : Name) (s : List QByte) : ∃ c t, d.1 ++ s = c :: t ∧ isNameByte c = true := by
  obtain ⟨c, t, hcons⟩ := exists_cons_of_ne_nil d.2.1
  exact ⟨c, t ++ s, by rw [hcons, cons_append], d.2.2.1 c (hcons ▸ mem_cons_self)⟩

end Tokens

/-! ## Operators -/

section Operators

theorem Op.text_head : ∀ o : Op, ∃ c s, o.text = c :: s ∧ isBlank c = false := by
  intro o
  cases o <;> exact ⟨_, _, rfl, rfl⟩

/-- Behind an operator comes no `=`, so that it is found on its level and on no other. -/
theorem findOp_text (o : Op) {s : List QByte} (hs : s.head? ≠ some 0x3d) (level : ℕ) :
    findOp level (o.text ++ s) = if o.level = level then some o else none := by
  have heq : ¬ [0x3d#8] <+: s := by
    rintro ⟨t, rfl⟩
    exact hs rfl
  by_cases h3 : level = 3
  · subst h3
    cases o <;> simp [findOp, levelOps, Op.text, Op.level, cons_prefix_cons, heq]
  · by_cases h4 : level = 4
    · subst h4
      cases o <;> simp [findOp, levelOps, Op.text, Op.level, cons_prefix_cons]
    · have hnone : levelOps level = [] := by
        unfold levelOps
        split <;> simp_all
      have hne : o.level ≠ level := by
        cases o <;> simp [Op.level] <;> omega
      rw [findOp, hnone, if_neg hne]
      rfl

end Operators

/-! ## The parser -/

section Run

variable {consts} {e : Expr} {v : ℤ} {s s' lead tail : List QByte} {level fuel : ℕ}

/-- Above the terms the parser leaves no blanks. -/
theorem dropWhile_of_parse (h : parsePrecompilerIf consts fuel (level + 1) s = .ok (v, s')) : s'.dropWhile isBlank = s' := by
  induction fuel generalizing s v with
  | zero => cases h
  | succ fuel ih =>
    rw [parsePrecompilerIf] at h
    cases hleft : parsePrecompilerIf consts fuel level s with
    | error e =>
      rw [hleft] at h
      cases h
    | ok r =>
      rw [hleft] at h
      change (match findOp (level + 1) (r.2.dropWhile isBlank) with | none => _ | some o => _) = _ at h
      cases hop : findOp (level + 1) (r.2.dropWhile isBlank) with
      | none =>
        rw [hop] at h
        cases h
        exact dropWhile_idempotent _ _
      | some o =>
        rw [hop] at h
        dsimp only at h
        cases hright : parsePrecompilerIf consts fuel (level + 1) ((r.2.dropWhile isBlank).drop o.text.length) with
        | error e =>
          rw [hright] at h
          cases h
        | ok r' =>
          rw [hright] at h
          cases h
          exact ih hright

/-- What is behind a part of an expression. -/
abbrev Behind := Option (Gap × Op × Gap × Expr)

namespace Behind

def text : Behind → List QByte
  | none => []
  | some (before, o, behind, e) => before.1 ++ (o.text ++ (behind.1 ++ e.text))

def flat (consts : List QByte → Option (List QByte)) : Behind → List (Op × ℤ)
  | none => []
  | some (_, o, _, e) => (o, (e.flat consts rightValue).1) :: (e.flat consts rightValue).2

end Behind

namespace Expr

def first : Expr → Term
  | term t => t
  | chain t _ _ _ _ => t

def behind : Expr → Behind
  | term _ => none
  | chain _ before o behind e => some (before, o, behind, e)

theorem text_eq (e : Expr) : e.text = e.first.text ++ e.behind.text := by
  cases e with
  | term t => rw [text, first, behind, Behind.text, append_nil]
  | chain t before o behind e => rw [text, first, Expr.behind, Behind.text]

theorem flat_eq (e : Expr) : e.flat consts rightValue = (e.first.value consts rightValue, e.behind.flat consts) := by
  cases e with
  | term t => rw [flat, first, behind, Behind.flat]
  | chain t before o behind e => rw [flat, first, Expr.behind, Behind.flat]

theorem map_fst_flat (run : ℤ × List (Op × ℤ) → ℤ) (e : Expr) : (e.flat consts run).2.map Prod.fst = e.ops := by
  match e with
  | term t =>
    rw [flat, ops]
    rfl
  | chain t _ o _ e => rw [flat, ops, map_cons, map_fst_flat run e]

end Expr

/-- No expression begins with `=`. -/
theorem Term.head?_text (t : Term) (s : List QByte) : (t.text ++ s).head? ≠ some 0x3d := by
  match t with
  | .name d =>
    obtain ⟨c, s', hcons⟩ := exists_cons_of_ne_nil d.2.1
    rw [Term.text, hcons]
    exact fun h => ne_of_isNameByte (d.2.2.1 c (hcons ▸ mem_cons_self)) 0x3d (by simp [notInNames]) (some.inj h)
  | .defined gap d =>
    rw [Term.text]
    exact fun h => absurd (some.inj h) (by decide)
  | .definedParens before inner behind d =>
    rw [Term.text]
    exact fun h => absurd (some.inj h) (by decide)
  | .not gap t =>
    rw [Term.text]
    exact fun h => absurd (some.inj h) (by decide)
  | .parens before e behind =>
    rw [Term.text]
    exact fun h => absurd (some.inj h) (by decide)

theorem head?_gap (g : Gap) (e : Expr) (s : List QByte) : (g.1 ++ (e.text ++ s)).head? ≠ some 0x3d := by
  cases hg : g.1 with
  | nil =>
    rw [nil_append, e.text_eq, append_assoc]
    exact e.first.head?_text _
  | cons c g' =>
    have hc : isSpace c = true := g.2 c (hg ▸ mem_cons_self)
    rintro h
    obtain rfl : c = 0x3d := some.inj h
    exact absurd hc (by decide)

/-- The text behind an expression: it ends a name, and no operator comes next. -/
structure Tail (tail : List QByte) : Prop where
  stops : Stops tail
  noOp : ∀ level, findOp level (tail.dropWhile isBlank) = none

theorem stops_gap {g : Gap} (hg : g.1 ≠ []) (s : List QByte) : Stops (g.1 ++ s) := by
  obtain ⟨c, g', hcons⟩ := exists_cons_of_ne_nil hg
  rw [hcons]
  exact stops_cons (.inl (isBlank_of_isSpace (g.2 c (hcons ▸ mem_cons_self))))

/-- Behind blanks, a closing bracket ends an expression. -/
theorem tail_bracket (g : Gap) (s : List QByte) : Tail (g.1 ++ 0x29 :: s) := by
  refine ⟨?_, fun level => ?_⟩
  · cases hg : g.1 with
    | nil => exact stops_cons (.inr (.inr rfl))
    | cons c g' => exact stops_cons (.inl (isBlank_of_isSpace (g.2 c (hg ▸ mem_cons_self))))
  · rw [dropWhile_gap, dropWhile_cons_of_neg (by decide), findOp, List.find?_eq_none]
    intro o _
    cases o <;> simp [Op.text, cons_prefix_cons]

/-- What is behind a part of an expression is a smaller one, with blanks where they are needed. -/
def Within (e : Expr) (r : Behind) : Prop :=
  ∀ before o behind e', r = some (before, o, behind, e') → sizeOf e' < sizeOf e ∧ e'.Spaced

variable (consts) in
/-- The parser reads a part of an expression at a level, and gives the value of that part. -/
def ReadsAt (e : Expr) (level : ℕ) : Prop :=
  ∀ lead : Gap, ∀ tail : List QByte, Tail tail → ∃ v r, Within e r ∧
    right Op.level Op.apply (level + 1) (e.flat consts rightValue) = (v, rest Op.level Op.apply (level + 1) (r.flat consts)) ∧
    ∃ N, ∀ n ≥ N, ∃ s, parsePrecompilerIf consts n level (lead.1 ++ (e.text ++ tail)) = .ok (v, s) ∧
      s.dropWhile isBlank = (r.text ++ tail).dropWhile isBlank

/-- Behind a part of an expression the parser finds the operator that comes next. -/
theorem dropWhile_behind (before : Gap) (o : Op) (behind : Gap) (e' : Expr) (tail : List QByte) :
    (Behind.text (some (before, o, behind, e')) ++ tail).dropWhile isBlank =
      o.text ++ (behind.1 ++ (e'.text ++ tail)) := by
  obtain ⟨c, s, hcons, hc⟩ := o.text_head
  rw [Behind.text]
  simp only [append_assoc]
  rw [dropWhile_gap, hcons, cons_append, dropWhile_cons_of_neg (by simp [hc])]

/-- What a level adds to the part that was read at the one below: nothing, or an operator of the level with what is read
behind it at the same level. -/
theorem reads_step {r : Behind} (hwithin : Within e r)
    (hright : right Op.level Op.apply (level + 1) (e.flat consts rightValue) =
      (v, rest Op.level Op.apply (level + 1) (r.flat consts)))
    (hleft : ∃ N, ∀ n ≥ N, ∃ s', parsePrecompilerIf consts n level s = .ok (v, s') ∧
      s'.dropWhile isBlank = (r.text ++ tail).dropWhile isBlank)
    (hnext : ∀ e', sizeOf e' < sizeOf e → e'.Spaced → ReadsAt consts e' (level + 1)) (htail : Tail tail) :
    ∃ v r, Within e r ∧
      right Op.level Op.apply (level + 2) (e.flat consts rightValue) =
        (v, rest Op.level Op.apply (level + 2) (r.flat consts)) ∧
      ∃ N, ∀ n ≥ N, ∃ s', parsePrecompilerIf consts n (level + 1) s = .ok (v, s') ∧
        s'.dropWhile isBlank = (r.text ++ tail).dropWhile isBlank := by
  obtain ⟨N, hleft⟩ := hleft
  cases r with
  | none =>
    refine ⟨v, none, hwithin, right_succ_nil hright, N + 1, fun n hn => ?_⟩
    obtain ⟨m, rfl⟩ : ∃ m, n = m + 1 := ⟨n - 1, by omega⟩
    obtain ⟨s', hrun, hs'⟩ := hleft m (by omega)
    have hs'' : s'.dropWhile isBlank = tail.dropWhile isBlank := hs'
    refine ⟨s'.dropWhile isBlank, ?_, (dropWhile_idempotent _ _).trans hs'⟩
    rw [parsePrecompilerIf, hrun]
    change (match findOp (level + 1) (s'.dropWhile isBlank) with | none => _ | some o => _) = _
    rw [hs'', htail.noOp]
  | some x =>
    obtain ⟨before, o, behind, e'⟩ := x
    obtain ⟨hsize, hspaced⟩ := hwithin before o behind e' rfl
    have hfind := findOp_text o (head?_gap behind e' tail) (level + 1)
    by_cases hlevel : o.level = level + 1
    · obtain ⟨w, r', hwithin', hright', N', hrun'⟩ := hnext e' hsize hspaced behind tail htail
      refine ⟨o.apply v w, r', fun before o behind e'' he'' => ?_, ?_, max N N' + 1, fun n hn => ?_⟩
      · obtain ⟨hsize', hrest⟩ := hwithin' before o behind e'' he''
        exact ⟨hsize'.trans hsize, hrest⟩
      · refine (right_succ_apply hright hlevel).trans ?_
        change (o.apply v (right Op.level Op.apply (level + 2) (e'.flat consts rightValue)).1,
          (right Op.level Op.apply (level + 2) (e'.flat consts rightValue)).2) = _
        rw [hright']
      · obtain ⟨m, rfl⟩ : ∃ m, n = m + 1 := ⟨n - 1, by omega⟩
        obtain ⟨s', hrun, hs'⟩ := hleft m (by omega)
        obtain ⟨s'', hrun'', hs''⟩ := hrun' m (by omega)
        refine ⟨s'', ?_, hs''⟩
        rw [dropWhile_behind] at hs'
        rw [parsePrecompilerIf, hrun]
        change (match findOp (level + 1) (s'.dropWhile isBlank) with | none => _ | some o => _) = _
        rw [hs', hfind, if_pos hlevel]
        dsimp only
        rw [drop_left, hrun'']
        rfl
    · refine ⟨v, some (before, o, behind, e'), hwithin, right_succ_stop hright hlevel, N + 1, fun n hn => ?_⟩
      obtain ⟨m, rfl⟩ : ∃ m, n = m + 1 := ⟨n - 1, by omega⟩
      obtain ⟨s', hrun, hs'⟩ := hleft m (by omega)
      refine ⟨s'.dropWhile isBlank, ?_, (dropWhile_idempotent _ _).trans hs'⟩
      rw [dropWhile_behind] at hs'
      rw [parsePrecompilerIf, hrun]
      change (match findOp (level + 1) (s'.dropWhile isBlank) with | none => _ | some o => _) = _
      rw [hs', hfind, if_neg hlevel]

/-- At the last level the whole expression is read. -/
theorem value_of_right {r : Behind} (hright : right Op.level Op.apply 6 (e.flat consts rightValue) =
      (v, rest Op.level Op.apply 6 (r.flat consts))) : v = rightValue (e.flat consts rightValue) ∧ r = none := by
  have hlevel : ∀ o ∈ (e.flat consts rightValue).2.map Prod.fst, o.level < 6 := by
    intro o _
    unfold Op.level
    split_ifs <;> omega
  have hend : (right Op.level Op.apply 6 (e.flat consts rightValue)).2 = [] := right_snd_eq_nil hlevel
  rw [hright] at hend
  constructor
  · rw [rightValue, hright]
  · cases r with
    | none => rfl
    | some x => cases hend

theorem parse_zero (n : ℕ) (lead : Gap) (s : List QByte) : parsePrecompilerIf consts (n + 1) 0 (lead.1 ++ s) =
    parsePrecompilerIf consts (n + 1) 0 (s.dropWhile isBlank) := by
  rw [parsePrecompilerIf, parsePrecompilerIf, dropWhile_gap, dropWhile_idempotent]

/-- A term is read, where the expressions in its brackets are. -/
theorem Term.reads (t : Term) (hspaced : t.Spaced) (htail : t.EndsOpen → Stops tail)
    (hinner : ∀ e', sizeOf e' < sizeOf t → e'.Spaced → ReadsAt consts e' 5) (lead : Gap) :
    ∃ N, ∀ n ≥ N, ∃ s, parsePrecompilerIf consts n 0 (lead.1 ++ (t.text ++ tail)) = .ok (t.value consts rightValue, s) ∧
      s.dropWhile isBlank = tail.dropWhile isBlank := by
  match t with
  | .name d =>
    obtain ⟨c, t, hcons, hc⟩ := d.head tail
    have hblank := isBlank_of_isNameByte hc
    have hne := ne_of_isNameByte hc
    refine ⟨1, fun n hn => ⟨tail, ?_, rfl⟩⟩
    obtain ⟨m, rfl⟩ : ∃ m, n = m + 1 := ⟨n - 1, by omega⟩
    have hself : (d.1 ++ tail).dropWhile isBlank = d.1 ++ tail := by
      rw [hcons, dropWhile_cons_of_neg (by simp [hblank])]
    have hhead : ∀ x : QByte, c ≠ x → (d.1 ++ tail).head? ≠ some x := by
      intro x hx h
      rw [hcons] at h
      exact hx (some.inj h)
    rw [Term.text, parse_zero, hself, parsePrecompilerIf, hself, if_neg (hhead _ (hne _ (by simp [notInNames]))),
      if_neg (hhead _ (hne _ (by simp [notInNames]))), if_neg (not_definedName hspaced (htail trivial)), parseToken,
      simpleGetToken_name' d (htail trivial), Term.value]
    exact if_neg d.2.1
  | .defined gap d =>
    obtain ⟨c, t, hcons, hc⟩ := d.head tail
    have hblank := isBlank_of_isNameByte hc
    have hne := ne_of_isNameByte hc
    refine ⟨1, fun n hn => ⟨tail, ?_, rfl⟩⟩
    obtain ⟨m, rfl⟩ : ∃ m, n = m + 1 := ⟨n - 1, by omega⟩
    have hspace : (gap.1 ++ (d.1 ++ tail)).dropWhile isSpace = d.1 ++ tail := by
      rw [dropWhile_space, hcons, dropWhile_cons_of_neg fun h => by rw [isBlank_of_isSpace h] at hblank; cases hblank]
    have hopen : (d.1 ++ tail).head? ≠ some 0x28 := by
      rw [hcons]
      exact fun h => hne 0x28 (by simp [notInNames]) (some.inj h)
    rw [Term.text, parse_zero, Term.value]
    simp only [append_assoc]
    change parseDefined consts (gap.1 ++ (d.1 ++ tail)) = _
    rw [parseDefined, hspace]
    dsimp only
    rw [if_neg hopen, simpleGetToken_name' d (htail trivial)]
    rfl
  | .definedParens before inner behind d =>
    refine ⟨1, fun n hn => ⟨tail, ?_, rfl⟩⟩
    obtain ⟨m, rfl⟩ : ∃ m, n = m + 1 := ⟨n - 1, by omega⟩
    rw [Term.text, parse_zero, Term.value]
    simp only [append_assoc, cons_append, nil_append]
    change parseDefined consts (before.1 ++ 0x28 :: (inner.1 ++ (d.1 ++ (behind.1 ++ 0x29 :: tail)))) = _
    rw [parseDefined, dropWhile_space, dropWhile_cons_of_neg (by decide)]
    dsimp only
    rw [List.head?_cons, if_pos rfl, tail_cons, simpleGetToken_name inner d (tail_bracket behind tail).stops]
    change (if ((behind.1 ++ 0x29 :: tail).dropWhile isSpace).head? = some 0x29 then _ else _) = _
    rw [dropWhile_space, dropWhile_cons_of_neg (by decide)]
    rfl
  | .not gap t =>
    obtain ⟨N, hrun⟩ := Term.reads t hspaced htail (fun e' he' => hinner e' (he'.trans (by simp))) gap
    refine ⟨N + 2, fun n hn => ?_⟩
    obtain ⟨m, rfl⟩ : ∃ m, n = m + 2 := ⟨n - 2, by omega⟩
    obtain ⟨s, hparse, hs⟩ := hrun m (by omega)
    refine ⟨s.dropWhile isBlank, ?_, (dropWhile_idempotent _ _).trans hs⟩
    have hone : parsePrecompilerIf consts (m + 1) 1 (gap.1 ++ (t.text ++ tail)) =
        .ok (t.value consts rightValue, s.dropWhile isBlank) := by
      rw [parsePrecompilerIf, hparse]
      rfl
    rw [Term.text, parse_zero, Term.value]
    simp only [append_assoc, cons_append]
    change (parsePrecompilerIf consts (m + 1) 1 (gap.1 ++ (t.text ++ tail))).map _ = _
    rw [hone]
    rfl
  | .parens before e behind =>
    obtain ⟨v, r, -, hright, N, hrun⟩ := hinner e (by simp) hspaced before _ (tail_bracket behind tail)
    obtain ⟨hv, hr⟩ := value_of_right hright
    subst hr
    refine ⟨N + 1, fun n hn => ⟨tail, ?_, rfl⟩⟩
    obtain ⟨m, rfl⟩ : ∃ m, n = m + 1 := ⟨n - 1, by omega⟩
    obtain ⟨s, hparse, hs⟩ := hrun m (by omega)
    have hs' : s = 0x29 :: tail := by
      rw [← dropWhile_of_parse hparse, hs]
      change (behind.1 ++ 0x29 :: tail).dropWhile isBlank = _
      rw [dropWhile_gap, dropWhile_cons_of_neg (by decide)]
    subst hs'
    rw [Term.text, parse_zero, Term.value, ← hv]
    simp only [append_assoc, cons_append, nil_append]
    change (parsePrecompilerIf consts m 5 (before.1 ++ (e.text ++ (behind.1 ++ 0x29 :: tail)))).bind _ = _
    rw [hparse]
    rfl

theorem sizeOf_first_le (e : Expr) : sizeOf e.first < sizeOf e := by
  cases e with
  | term t => simp [Expr.first]
  | chain t _ _ _ _ =>
    simp only [Expr.first, Expr.chain.sizeOf_spec]
    omega

theorem within_behind (hspaced : e.Spaced) : Within e e.behind := by
  intro before o behind e' he
  cases e with
  | term t => cases he
  | chain t before' o' behind' e =>
    cases he
    refine ⟨?_, hspaced.2.2⟩
    simp only [Expr.chain.sizeOf_spec]
    omega

theorem spaced_first (hspaced : e.Spaced) : e.first.Spaced := by
  cases e with
  | term t => exact hspaced
  | chain t _ _ _ e => exact hspaced.1

/-- Behind the first term a name ends. -/
theorem stops_behind (hspaced : e.Spaced) (htail : Tail tail) (hopen : e.first.EndsOpen) : Stops (e.behind.text ++ tail) := by
  cases e with
  | term t => exact htail.stops
  | chain t before o behind e =>
    rw [Expr.behind, Behind.text, append_assoc]
    exact stops_gap (hspaced.2.1 hopen) _

/-- Every part of an expression is read. -/
theorem readsAt (e : Expr) (hspaced : e.Spaced) (level : ℕ) : ReadsAt consts e level := by
  induction hsize : sizeOf e using Nat.strong_induction_on generalizing e level with
  | _ size ih =>
    subst hsize
    have hsmaller (level : ℕ) (e' : Expr) (h : sizeOf e' < sizeOf e) (hspaced' : e'.Spaced) : ReadsAt consts e' level :=
      ih _ h e' hspaced' level rfl
    induction level with
    | zero =>
      intro lead tail htail
      have hterm := Term.reads e.first (spaced_first hspaced) (stops_behind hspaced htail)
        (fun e' he' => hsmaller 5 e' (he'.trans (sizeOf_first_le e))) lead
      refine ⟨e.first.value consts rightValue, e.behind, within_behind hspaced, ?_, ?_⟩
      · rw [e.flat_eq]
        -- there are no operators on the level of terms
        cases hb : e.behind with
        | none => exact right_succ_nil rfl
        | some x =>
          obtain ⟨before, o, behind, e'⟩ := x
          refine right_succ_stop (right_zero _ _) ?_
          unfold Op.level
          split_ifs <;> omega
      · simp only [e.text_eq, append_assoc]
        exact hterm
    | succ level ihlevel =>
      intro lead tail htail
      obtain ⟨v, r, hwithin, hright, hrun⟩ := ihlevel lead tail htail
      exact reads_step hwithin hright hrun (hsmaller (level + 1)) htail

/-- What may be behind an expression: the end of the text or of the line, or a comment. -/
def LineEnd (s : List QByte) : Prop := s = [] ∨ s.head? = some 0x0a ∨ [0x2f, 0x2f] <+: s

/-- `ParsePrecompilerIf` gives an expression its value from the right, and stops behind the blanks that follow it. -/
theorem parse_eq_rightValue (consts : List QByte → Option (List QByte)) (e : Expr) (hspaced : e.Spaced) (lead gap : Gap)
    {stop : List QByte} (hstop : LineEnd stop) : ∃ N, ∀ n ≥ N,
      parsePrecompilerIf consts n 5 (lead.1 ++ (e.text ++ (gap.1 ++ stop))) =
        .ok (rightValue (e.flat consts rightValue), stop) := by
  have hself : (gap.1 ++ stop).dropWhile isBlank = stop := by
    rw [dropWhile_gap]
    rcases hstop with rfl | hnl | ⟨s, rfl⟩
    · rfl
    · obtain ⟨s, rfl⟩ := List.head?_eq_some_iff.mp hnl
      rfl
    · rfl
  have htail : Tail (gap.1 ++ stop) := by
    refine ⟨?_, fun level => ?_⟩
    · by_cases hg : gap.1 = []
      · rw [hg, nil_append]
        rcases hstop with rfl | hnl | ⟨s, rfl⟩
        · exact stops_nil
        · obtain ⟨s, rfl⟩ := List.head?_eq_some_iff.mp hnl
          exact stops_cons (.inr (.inl rfl))
        · exact stops_comment
      · exact stops_gap hg _
    · rw [hself, findOp, List.find?_eq_none]
      intro o _
      rcases hstop with rfl | hnl | ⟨s, rfl⟩
      · cases o <;> simp [Op.text]
      · obtain ⟨s, rfl⟩ := List.head?_eq_some_iff.mp hnl
        cases o <;> simp [Op.text, cons_prefix_cons]
      · cases o <;> simp [Op.text, cons_prefix_cons]
  obtain ⟨v, r, -, hright, N, hrun⟩ := readsAt e hspaced 5 lead (gap.1 ++ stop) htail
  obtain ⟨hv, hr⟩ := value_of_right hright
  subst hr
  refine ⟨N, fun n hn => ?_⟩
  obtain ⟨s, hparse, hs⟩ := hrun n hn
  rw [hparse, ← hv, ← dropWhile_of_parse hparse, hs]
  change Except.ok (v, (gap.1 ++ stop).dropWhile isBlank) = _
  rw [hself]

end Run

/-! ## Grouping as in C -/

section Grouping

variable {a b : ℤ} {o : Op} {r : List (Op × ℤ)}

theorem associate_or : Associate Op.apply .or .or := by
  intro a b c
  simp only [Op.apply, boolInt]
  split_ifs <;> simp_all

theorem associate_and : Associate Op.apply .and .and := by
  intro a b c
  simp only [Op.apply, boolInt]
  split_ifs <;> simp_all

theorem level_eq_of_ne_logic (h : o ≠ .or ∧ o ≠ .and) : o.level = 3 := if_neg (by simp [h.1, h.2])

/-- The two passes that the parser makes. -/
theorem rightValue_eq (a : ℤ) (r : List (Op × ℤ)) : rightValue (a, r) =
    (rightPass Op.level Op.apply 4 (rightPass Op.level Op.apply 3 a r).1 (rightPass Op.level Op.apply 3 a r).2).1 := by
  have hskip : ∀ p, p < 3 → ∀ (a : ℤ) (r : List (Op × ℤ)), rightPass Op.level Op.apply p a r = (a, r) := by
    intro p hp a r
    induction r generalizing a with
    | nil => rfl
    | cons x r ih =>
      have hne : x.1.level ≠ p := by
        unfold Op.level
        split_ifs <;> omega
      rw [rightPass, if_neg hne, ih]
  have hfive : ∀ (a : ℤ) (r : List (Op × ℤ)), (rightPass Op.level Op.apply 5 a r).1 = a := by
    intro a r
    refine congrArg Prod.fst (rightPass_of_head (fun x _ => ?_) a a)
    unfold Op.level
    split_ifs <;> omega
  rw [rightValue, right, right, right, right, right, right, right, hskip 0 (by omega), hskip 1 (by omega),
    hskip 2 (by omega), hfive]

theorem rightValue_logic (ho : o = .or ∨ o = .and) (a b : ℤ) (r : List (Op × ℤ)) :
    rightValue (a, (o, b) :: r) = o.apply a (rightValue (b, r)) := by
  have hlevel : o.level = 4 := if_pos ho
  rw [rightValue_eq, rightValue_eq, rightPass, if_neg (by omega), rightPass, if_pos hlevel]

theorem rightValue_compare (ho : o ≠ .or ∧ o ≠ .and) (hr : ∀ x ∈ r.head?, x.1 = .or ∨ x.1 = .and) :
    rightValue (a, (o, b) :: r) = rightValue (o.apply a b, r) := by
  have hhead : ∀ x ∈ r.head?, x.1.level ≠ 3 := by
    intro x hx
    rw [Op.level, if_pos (hr x hx)]
    omega
  rw [rightValue_eq, rightValue_eq, rightPass, if_pos (level_eq_of_ne_logic ho), rightPass_of_head hhead b b,
    rightPass_of_head hhead (o.apply a b) b]

theorem cChain_or (a b : ℤ) (r : List (Op × ℤ)) : cChain (a, (.or, b) :: r) = Op.or.apply a (cChain (b, r)) := by
  have hbelow : left Op.cPri Op.apply 3 (a, (.or, b) :: r) =
      (a, (.or, (left Op.cPri Op.apply 3 (b, r)).1) :: (left Op.cPri Op.apply 3 (b, r)).2) :=
    left_cons_of_le (le_refl 3)
  rw [cChain, left, hbelow]
  dsimp only
  rw [leftPass_cons_of_eq (show Op.or.cPri = 3 from rfl)]
  refine leftPass_apply (fun x _ hx => ?_) _ _
  obtain ⟨o, c⟩ := x
  cases o <;> first | exact associate_or | cases hx

/-- Without `||` nothing is left to the last pass. -/
theorem cChain_of_no_or (c : ℤ × List (Op × ℤ)) (hc : Op.or ∉ c.2.map Prod.fst) :
    cChain c = (left Op.cPri Op.apply 3 c).1 := by
  have hhead : ∀ x ∈ (left Op.cPri Op.apply 3 c).2.head?, x.1.cPri ≠ 3 := by
    intro x hx hpri
    have hmem := mem_left (List.mem_of_mem_head? hx)
    obtain ⟨o, d⟩ := x
    cases o <;> first | exact hc hmem | cases hpri
  rw [cChain, left, leftPass_of_head hhead _ 0]

theorem cChain_and (a b : ℤ) (hr : Op.or ∉ r.map Prod.fst) :
    cChain (a, (.and, b) :: r) = Op.and.apply a (cChain (b, r)) := by
  have hbelow : left Op.cPri Op.apply 2 (a, (.and, b) :: r) =
      (a, (.and, (left Op.cPri Op.apply 2 (b, r)).1) :: (left Op.cPri Op.apply 2 (b, r)).2) :=
    left_cons_of_le (le_refl 2)
  rw [cChain_of_no_or _ (by simpa using hr), cChain_of_no_or _ hr, left, hbelow]
  dsimp only
  rw [leftPass_cons_of_eq (show Op.and.cPri = 2 from rfl), left]
  refine leftPass_apply (fun x _ hx => ?_) _ _
  obtain ⟨o, c⟩ := x
  cases o <;> first | exact associate_and | cases hx

theorem cChain_compare (ho : o ≠ .or ∧ o ≠ .and) (hr : ∀ x ∈ r.head?, x.1 = .or ∨ x.1 = .and) :
    cChain (a, (o, b) :: r) = cChain (o.apply a b, r) := by
  have hhead : ∀ p < 2, ∀ x ∈ r.head?, x.1.cPri ≠ p := by
    intro p hp x hx
    rcases hr x hx with h | h <;> rw [h] <;> simp only [Op.cPri] <;> omega
  have hlt : o.cPri = 0 ∨ o.cPri = 1 := by
    cases o <;> simp_all [Op.cPri]
  have htwo : left Op.cPri Op.apply 2 (a, (o, b) :: r) = left Op.cPri Op.apply 2 (o.apply a b, r) := by
    rw [left, left, left, left, left, left]
    rcases hlt with h | h
    · rw [leftPass_cons_of_eq h]
    · rw [leftPass_cons_of_ne (by omega), leftPass_cons_of_eq h, leftPass_of_head (hhead 0 (by omega)) b b,
        leftPass_of_head (hhead 0 (by omega)) (o.apply a b) b]
  have hthree : left Op.cPri Op.apply 3 (a, (o, b) :: r) = left Op.cPri Op.apply 3 (o.apply a b, r) := by
    rw [left, htwo, ← left]
  rw [cChain, left, hthree, ← left, ← cChain]

/-- A chain without comparisons next to each other and without `&&` before `||` has its value in C. -/
theorem rightValue_eq_cChain (a : ℤ) (r : List (Op × ℤ)) (h : Grouped (r.map Prod.fst)) :
    rightValue (a, r) = cChain (a, r) := by
  induction r generalizing a with
  | nil => rfl
  | cons x r ih =>
    obtain ⟨o, b⟩ := x
    rw [map_cons] at h
    have hcompare : o ≠ .or ∧ o ≠ .and → (∀ o' ∈ (r.map Prod.fst).head?, o' = .or ∨ o' = .and) ∧ Grouped (r.map Prod.fst) →
        rightValue (a, (o, b) :: r) = cChain (a, (o, b) :: r) := by
      intro ho hr
      have hhead : ∀ x ∈ r.head?, x.1 = .or ∨ x.1 = .and := by
        intro x hx
        refine hr.1 x.1 ?_
        rw [List.head?_map]
        exact Option.mem_map_of_mem _ hx
      rw [rightValue_compare ho hhead, cChain_compare ho hhead, ih _ hr.2]
    cases o with
    | or => rw [rightValue_logic (.inl rfl), cChain_or, ih _ h]
    | and => rw [rightValue_logic (.inr rfl), cChain_and _ _ h.1, ih _ h.2]
    | _ => exact hcompare ⟨nofun, nofun⟩ h

end Grouping

variable {consts}

mutual

theorem Term.value_eq : (t : Term) → t.Plain → t.value consts rightValue = t.value consts cChain
  | .name d, _ => by rw [Term.value, Term.value]
  | .defined _ d, _ => by rw [Term.value, Term.value]
  | .definedParens _ _ _ d, _ => by rw [Term.value, Term.value]
  | .not _ t, h => by
    rw [Term.Plain] at h
    rw [Term.value, Term.value, Term.value_eq t h]
  | .parens _ e _, h => by
    rw [Term.Plain] at h
    rw [Term.value, Term.value, Expr.flat_eq_c e h.2]
    exact rightValue_eq_cChain _ _ (by rw [e.map_fst_flat]; exact h.1)

theorem Expr.flat_eq_c : (e : Expr) → e.TermsPlain → e.flat consts rightValue = e.flat consts cChain
  | .term t, h => by
    rw [Expr.TermsPlain] at h
    rw [Expr.flat, Expr.flat, Term.value_eq t h]
  | .chain t _ o _ e, h => by
    rw [Expr.TermsPlain] at h
    rw [Expr.flat, Expr.flat, Term.value_eq t h.1, Expr.flat_eq_c e h.2]

end

/-- One space. -/
def space : Gap := ⟨[0x20], by decide⟩

/-- A number of one digit. -/
def digit (c : QByte) (hc : isNameByte c = true ∧ c ≠ 0x2d) : Term :=
  .name ⟨[c], by simp, by simpa using hc.1, by simp, by simp, fun h => absurd (Option.some.inj h) hc.2⟩

/-- `t o e`. -/
def spaced (t : Term) (o : Op) (e : Expr) : Expr := .chain t space o space e

/-- `1 == 1 && 2 < 3`. -/
def twoComparisons : Expr :=
  spaced (digit 0x31 (by decide)) .eq (spaced (digit 0x31 (by decide)) .and
    (spaced (digit 0x32 (by decide)) .lt (.term (digit 0x33 (by decide)))))

/-- `0 && 0 || 1`. -/
def andOr : Expr :=
  spaced (digit 0x30 (by decide)) .and (spaced (digit 0x30 (by decide)) .or (.term (digit 0x31 (by decide))))

end PrecompilerIf

end FteQuake
