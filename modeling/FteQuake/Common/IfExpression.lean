import FteQuake.Common.IfToken
import Mathlib.Data.List.Find

/-!
# Expressions in conditions

The expressions of integer literals, parentheses and the operators of `ifops`, with blanks between the tokens, and
their values by the table: the priorities one after the other, and the operators of a priority from the left.

`If_Token` gives this value, and `is_true` its truth, where no literal is the name of a cvar or longer than
`com_token`, and the operators of equal priority that come next to each other associate.
-/

namespace FteQuake

open List Option

namespace IfToken

open CmdIf Precedence

/-! ## Expressions -/

/-- The blanks between two tokens. -/
def Gap := { g : List QByte // g ≠ [] ∧ ∀ c ∈ g, blank c = true }

/-- An integer literal. -/
def Literal := { d : List QByte // d ≠ [] ∧ ∀ c ∈ d, CmdIf.isDigit c = true }

/-- An operator of the table. -/
def TableOp := { o : Operator // o ∈ ifops }

mutual

inductive Term
  | literal (d : Literal)
  | parens (before : Gap) (e : Expr) (behind : Gap)

/-- Terms with operators between them. -/
inductive Expr
  | term (t : Term)
  | chain (t : Term) (before : Gap) (o : TableOp) (behind : Gap) (e : Expr)

end

mutual

def Term.text : Term → List QByte
  | .literal d => d.1
  | .parens before e behind => 40 :: (before.1 ++ e.text ++ behind.1 ++ [41])

def Expr.text : Expr → List QByte
  | .term t => t.text
  | .chain t before o behind e => t.text ++ before.1 ++ o.1.opname ++ behind.1 ++ e.text

end

def Expr.ops : Expr → List Operator
  | .term _ => []
  | .chain _ _ o _ e => o.1 :: e.ops

/-- An operator on texts. -/
def applyOp (o : Operator) (left right : List QByte) : List QByte := ifOperator o.op left right

/-- The value of a chain by the table. -/
def tableValue (c : List QByte × List (Operator × List QByte)) : List QByte :=
  (left Operator.pri applyOp (ifPriMax + 1) c).1

/-- The value of a chain with the operators of a priority applied from the right. -/
def rightValue (c : List QByte × List (Operator × List QByte)) : List QByte :=
  (right Operator.pri applyOp (ifPriMax + 1) c).1

section Value

variable (run : List QByte × List (Operator × List QByte) → List QByte)

mutual

/-- The value of a term, where `run` is that of a chain. -/
def Term.value : Term → List QByte
  | .literal d => d.1
  | .parens _ e _ => run e.flat

/-- The values of the terms, with the operators between them. -/
def Expr.flat : Expr → List QByte × List (Operator × List QByte)
  | .term t => (t.value, [])
  | .chain t _ o _ e => (t.value, (o.1, e.flat.1) :: e.flat.2)

end

end Value

/-- The value by the table. -/
def Expr.value (e : Expr) : List QByte := tableValue (e.flat tableValue)

mutual

/-- Operators of equal priority that come next to each other associate, in all parentheses. -/
def Term.Associates : Term → Prop
  | .literal _ => True
  | .parens _ e _ => Precedence.Associates Operator.pri applyOp e.ops ∧ e.TermsAssociate

def Expr.TermsAssociate : Expr → Prop
  | .term t => t.Associates
  | .chain t _ _ _ e => t.Associates ∧ e.TermsAssociate

end

/-- Operators of equal priority that come next to each other associate. -/
def Expr.Associates (e : Expr) : Prop := Precedence.Associates Operator.pri applyOp e.ops ∧ e.TermsAssociate

mutual

/-- No literal is the name of a cvar, or longer than a token. -/
def Term.Plain (env : Env) : Term → Prop
  | .literal d => env.cvar d.1 = none ∧ d.1.length ≤ tokenMax
  | .parens _ e _ => e.Plain env

/-- No literal is the name of a cvar, or longer than a token. -/
def Expr.Plain (env : Env) : Expr → Prop
  | .term t => t.Plain env
  | .chain t _ _ _ e => t.Plain env ∧ e.Plain env

end

/-! ## Operators of the table -/

section Table

theorem take_append_take_left {α : Type*} (n : ℕ) (s t : List α) : (s.take n ++ t).take n = (s ++ t).take n := by
  rw [take_append, take_append, take_take, Nat.min_self, length_take, show n - min n s.length = n - s.length by omega]

theorem take_append_take_right {α : Type*} (n : ℕ) (s t : List α) : (s ++ t.take n).take n = (s ++ t).take n := by
  rw [take_append, take_append, take_take, Nat.min_eq_left (Nat.sub_le _ _)]

theorem associate_cat {o o' : Operator} (ho : o.op = .cat) (ho' : o'.op = .cat) : Associate applyOp o o' := by
  intro a b c
  rw [applyOp, applyOp, applyOp, applyOp, ho, ho']
  change ((a ++ b).take 8190 ++ c).take 8190 = (a ++ (b ++ c).take 8190).take 8190
  rw [take_append_take_left, take_append_take_right, append_assoc]

theorem isTrue_retTruth (b : Bool) : isTrue (retTruth b) = b := by
  cases b <;> decide +kernel

theorem associate_la {o o' : Operator} (ho : o.op = .la) (ho' : o'.op = .la) : Associate applyOp o o' := by
  intro a b c
  rw [applyOp, applyOp, applyOp, applyOp, ho, ho']
  change retTruth (isTrue (retTruth (isTrue a && isTrue b)) && isTrue c) =
    retTruth (isTrue a && isTrue (retTruth (isTrue b && isTrue c)))
  rw [isTrue_retTruth, isTrue_retTruth, Bool.and_assoc]

theorem associate_lo {o o' : Operator} (ho : o.op = .lo) (ho' : o'.op = .lo) : Associate applyOp o o' := by
  intro a b c
  rw [applyOp, applyOp, applyOp, applyOp, ho, ho']
  change retTruth (isTrue (retTruth (isTrue a || isTrue b)) || isTrue c) =
    retTruth (isTrue a || isTrue (retTruth (isTrue b || isTrue c)))
  rw [isTrue_retTruth, isTrue_retTruth, Bool.or_assoc]

theorem pri_le : ∀ o ∈ ifops, o.pri ≤ ifPriMax := by decide

/-- No entry of the table is the begin of a later one. -/
theorem find?_ifops : ∀ o ∈ ifops, ifops.find? (fun o' => o'.opname <+: o.opname) = some o := by decide +kernel

theorem all_clear : (ifops.flatMap Operator.opname).all (fun c => !blank c && c != 40 && c != 41) = true := by
  rfl

theorem opname_clear {o : Operator} (ho : o ∈ ifops) {c : QByte} (hc : c ∈ o.opname) :
    blank c = false ∧ c ≠ 40 ∧ c ≠ 41 := by
  have hclear := all_eq_true.mp all_clear c (mem_flatMap.mpr ⟨o, ho, hc⟩)
  simpa [and_assoc] using hclear

theorem opname_ne_nil : ∀ o ∈ ifops, o.opname ≠ [] := by decide

/-- Behind an operator come blanks, so that the table has the operator first. -/
theorem findOperator_eq (o : TableOp) {c : QByte} (hc : blank c = true) (s : List QByte) :
    findOperator (o.1.opname ++ c :: s) = some o.1 := by
  have hmatch : ∀ o' ∈ ifops, decide (o'.opname <+: o.1.opname ++ c :: s) = decide (o'.opname <+: o.1.opname) := by
    intro o' ho'
    refine decide_eq_decide.mpr ⟨fun h => ?_, fun h => h.trans (prefix_append _ _)⟩
    rcases prefix_or_prefix_of_prefix h (prefix_append _ _) with hshort | ⟨t, ht⟩
    · exact hshort
    · rw [← ht, prefix_append_right_inj] at h
      cases t with
      | nil => rw [← ht, append_nil]
      | cons d t =>
        obtain ⟨rfl, -⟩ := cons_prefix_cons.mp h
        have hmem : d ∈ o'.opname := ht ▸ mem_append_right _ (.head _)
        rw [(opname_clear ho' hmem).1] at hc
        cases hc
  rw [findOperator, ← find?_ifops o.1 o.2]
  exact find?_congr hmatch

theorem findOperator_nil : findOperator [] = none := rfl

end Table

/-! ## Parentheses -/

section Parens

/-- Text without parentheses is passed over. -/
theorem closeParen_append {s : List QByte} (hs : ∀ c ∈ s, c ≠ 40 ∧ c ≠ 41) (level : ℕ) (t : List QByte) :
    closeParen level (s ++ t) = (closeParen level t).map fun r => (s ++ r.1, r.2) := by
  induction s with
  | nil =>
    change closeParen level t = (closeParen level t).map fun r => (r.1, r.2)
    cases closeParen level t <;> rfl
  | cons c s ih =>
    obtain ⟨hopen, hclose⟩ := hs c (.head _)
    rw [cons_append, closeParen, if_neg fun h => hclose h.1, if_neg hclose, if_neg hopen,
      ih fun d hd => hs d (.tail c hd), Option.map_map]
    rfl

theorem Gap.clear (g : Gap) : ∀ c ∈ g.1, c ≠ 40 ∧ c ≠ 41 := by
  intro c hc
  have hblank := g.2.2 c hc
  constructor
  all_goals
    rintro rfl
    exact absurd hblank (by decide)

theorem Literal.clear (d : Literal) : ∀ c ∈ d.1, c ≠ 40 ∧ c ≠ 41 := by
  intro c hc
  have hdigit := d.2.2 c hc
  constructor
  all_goals
    rintro rfl
    exact absurd hdigit (by decide)

mutual

/-- Inside parentheses, a term is passed over. -/
theorem Term.closeParen_text (level : ℕ) (s : List QByte) : (t : Term) →
    closeParen (level + 1) (t.text ++ s) = (closeParen (level + 1) s).map fun r => (t.text ++ r.1, r.2)
  | .literal d => by
    rw [Term.text]
    exact closeParen_append d.clear _ _
  | .parens before e behind => by
    have hclose : closeParen (level + 1 + 1) (41 :: s) = (closeParen (level + 1) s).map fun r => (41 :: r.1, r.2) := by
      rw [closeParen, if_neg fun h => absurd h.2 (by omega), if_pos rfl]
      rfl
    rw [Term.text, cons_append, closeParen, if_neg fun h => absurd h.1 (by decide), if_neg (by decide), if_pos rfl]
    simp only [append_assoc, singleton_append]
    rw [closeParen_append before.clear, Expr.closeParen_text (level + 1) _ e, closeParen_append behind.clear, hclose]
    simp only [Option.map_map]
    congr 1
    funext r
    simp

/-- Inside parentheses, an expression is passed over. -/
theorem Expr.closeParen_text (level : ℕ) (s : List QByte) : (e : Expr) →
    closeParen (level + 1) (e.text ++ s) = (closeParen (level + 1) s).map fun r => (e.text ++ r.1, r.2)
  | .term t => by
    rw [Expr.text]
    exact Term.closeParen_text level s t
  | .chain t before o behind e => by
    rw [Expr.text]
    simp only [List.append_assoc]
    rw [Term.closeParen_text level _ t, closeParen_append before.clear,
      closeParen_append fun c hc => (opname_clear o.2 hc).2, closeParen_append behind.clear,
      Expr.closeParen_text level s e]
    simp only [Option.map_map]
    rfl

end

end Parens

/-! ## Terms -/

section Terms

def digits : List QByte := [48, 49, 50, 51, 52, 53, 54, 55, 56, 57]

theorem mem_digits : ∀ c : QByte, CmdIf.isDigit c = true → c ∈ digits := by decide +kernel

/-- What a digit is not. -/
def otherBytes : List QByte := [39, 47, 13, 10, 34, 92, 40, 33, 126, 45, 36]

theorem all_digits : digits.all (fun c => !control c && !decide (c ≤ 32) && isTokenByte ifPunct c &&
    !decide (c ∈ ifPunct) && otherBytes.all (c != ·)) = true := by
  rfl

theorem digit_facts {c : QByte} (hc : c ∈ digits) :
    (control c = false ∧ ¬c ≤ 32 ∧ isTokenByte ifPunct c = true ∧ c ∉ ifPunct) ∧ ∀ d ∈ otherBytes, c ≠ d := by
  have hall := all_eq_true.mp all_digits c hc
  simpa [and_assoc] using hall

/-- The functions of terms. -/
def functionNames : List (List QByte) :=
  [chars ['i', 'n', 't'], chars ['s', 't', 'r', 'l', 'e', 'n'], chars ['e', 'v', 'a', 'l'],
    chars ['d', 'e', 'f', 'i', 'n', 'e', 'd'], chars ['r', 'a', 'n', 'd', 'o', 'm'], chars ['v', 'i', 'd']]

theorem not_name_of_digit : ∀ c ∈ digits, ∀ name ∈ functionNames, name.head? ≠ some c := by decide

theorem blank_facts : ∀ c : QByte, blank c = true → control c = true ∧ isTokenByte ifPunct c = false := by
  decide +kernel

variable {env : Env} {eval : List QByte → ℕ → Option Parsed} {lead tail : List QByte}

theorem dropWhile_control (hlead : ∀ c ∈ lead, blank c = true) (s : List QByte) :
    (lead ++ s).dropWhile control = s.dropWhile control :=
  dropWhile_append_of_pos fun c hc => (blank_facts c (hlead c hc)).1

/-- A literal is one token. -/
theorem termToken_literal (d : Literal) (hd : d.1.length ≤ tokenMax) (htail : tail.head?.all blank = true) :
    termToken ((d.1 ++ tail).dropWhile control) = some (d.1, some tail) := by
  obtain ⟨c, s, hcons⟩ := exists_cons_of_ne_nil d.2.1
  have hdigits : ∀ x ∈ c :: s, x ∈ digits := fun x hx => mem_digits x (d.2.2 x (hcons ▸ hx))
  obtain ⟨⟨hcontrol, hwhite, -, hpunct⟩, hne⟩ := digit_facts (hdigits c (.head _))
  have hrun : (s ++ tail).takeWhile (isTokenByte ifPunct) = s := by
    rw [takeWhile_append_of_pos fun x hx => (digit_facts (hdigits x (.tail c hx))).1.2.2.1]
    cases tail with
    | nil => exact append_nil s
    | cons x tail =>
      have hx : isTokenByte ifPunct x = false := (blank_facts x htail).2
      rw [takeWhile_cons_of_neg (by rw [hx]; exact Bool.false_ne_true), append_nil]
  rw [hcons] at hd ⊢
  rw [cons_append, dropWhile_cons_of_neg (by rw [hcontrol]; exact Bool.false_ne_true), termToken,
    if_neg (show ¬(c :: (s ++ tail)).head? = some 39 from fun h => hne 39 (by decide) (some.inj h)),
    comParseToken, skipToken, if_neg fun h => hwhite h.1,
    if_neg fun h => hne 47 (by decide) h.1, if_neg fun h => hne 47 (by decide) h.1]
  simp only
  rw [if_neg (not_or.mpr ⟨hne 13 (by decide), hne 10 (by decide)⟩), if_neg (hne 34 (by decide)),
    if_neg fun h => hne 92 (by decide) h.1, if_neg hpunct, hrun, take_of_length_le hd, ← cons_append,
    drop_left]

/-- A literal that names no cvar stands for itself. -/
theorem term_literal (d : Literal) (hvar : env.cvar d.1 = none) (hd : d.1.length ≤ tokenMax)
    (hlead : ∀ c ∈ lead, blank c = true) (htail : tail.head?.all blank = true) :
    ifTokenTerm env eval (lead ++ (d.1 ++ tail)) = some (d.1, some tail) := by
  obtain ⟨c, s, hcons⟩ := exists_cons_of_ne_nil d.2.1
  have hdigit : c ∈ digits := mem_digits c (d.2.2 c (hcons ▸ mem_cons_self))
  have hhead : d.1.head? = some c := by rw [hcons]; rfl
  have hne (x : QByte) (hx : x ∈ otherBytes) : d.1.head? ≠ some x :=
    fun h => (digit_facts hdigit).2 x hx (some.inj (hhead.symm.trans h))
  have hname : ∀ name ∈ functionNames, d.1 ≠ name :=
    fun name h heq => not_name_of_digit c hdigit name h (heq ▸ hhead)
  simp only [functionNames, forall_mem_cons] at hname
  obtain ⟨hint, hstrlen, heval, hdefined, hrandom, hvid, -⟩ := hname
  rw [ifTokenTerm, dropWhile_control hlead, termToken_literal d hd htail, bind_some]
  simp only
  rw [if_neg (hne 40 (by decide)), if_neg (hne 33 (by decide)), if_neg (hne 126 (by decide)),
    if_neg (hne 45 (by decide)), if_neg hint, if_neg hstrlen, if_neg heval, if_neg hdefined, if_neg hrandom,
    if_neg hvid, readVar, if_neg (hne 36 (by decide)), hvar, getD_none]

/-- A text in parentheses stands for its value. -/
theorem term_parens (before behind : Gap) (e : Expr) (hlead : ∀ c ∈ lead, blank c = true) {v : List QByte}
    {r : Option (List QByte)} (h : eval (before.1 ++ (e.text ++ behind.1)) ifPriMax = some (v, r)) :
    ifTokenTerm env eval (lead ++ ((Term.parens before e behind).text ++ tail)) = some (v, some tail) := by
  have htext : (Term.parens before e behind).text ++ tail =
      40 :: (before.1 ++ (e.text ++ (behind.1 ++ 41 :: tail))) := by
    rw [Term.text]
    simp
  have htoken : termToken ((40 :: (before.1 ++ (e.text ++ (behind.1 ++ 41 :: tail)))).dropWhile control) =
      some ([40], some (before.1 ++ (e.text ++ (behind.1 ++ 41 :: tail)))) := by
    rw [dropWhile_cons_of_neg (by decide)]
    rfl
  have hclose : closeParen 1 (before.1 ++ (e.text ++ (behind.1 ++ 41 :: tail))) =
      some (before.1 ++ (e.text ++ behind.1), tail) := by
    have hend : closeParen 1 (41 :: tail) = some ([], tail) := if_pos ⟨rfl, rfl⟩
    rw [closeParen_append before.clear, Expr.closeParen_text 0 _ e, closeParen_append behind.clear, hend]
    simp only [map_some, append_nil]
  rw [ifTokenTerm, dropWhile_control hlead, htext, htoken, bind_some]
  simp only
  rw [if_pos (show [(40 : QByte)].head? = some 40 from rfl), hclose]
  simp only [h, map_some]

end Terms

/-! ## Expressions are evaluated -/

/-- What is behind a part of an expression. -/
abbrev Behind := Option (Gap × TableOp × Gap × Expr)

namespace Behind

def text : Behind → List QByte
  | none => []
  | some (before, o, behind, e) => before.1 ++ (o.1.opname ++ (behind.1 ++ e.text))

def flat : Behind → List (Operator × List QByte)
  | none => []
  | some (_, o, _, e) => (o.1, (e.flat rightValue).1) :: (e.flat rightValue).2

end Behind

namespace Expr

def first : Expr → Term
  | term t => t
  | chain t _ _ _ _ => t

def behind : Expr → Behind
  | term _ => none
  | chain _ before o behind e => some (before, o, behind, e)

theorem text_eq (e : Expr) : e.text = e.first.text ++ e.behind.text := by
  cases e with
  | term t => rw [text, first, behind, Behind.text, append_nil]
  | chain t before o behind e =>
    rw [text, first]
    change _ = t.text ++ (before.1 ++ (o.1.opname ++ (behind.1 ++ e.text)))
    simp only [append_assoc]

theorem flat_eq (e : Expr) : e.flat rightValue = (e.first.value rightValue, e.behind.flat) := by
  cases e with
  | term t => rw [flat, first, behind, Behind.flat]
  | chain t before o behind e => rw [flat, first, Expr.behind, Behind.flat]

theorem map_fst_flat (run : List QByte × List (Operator × List QByte) → List QByte) (e : Expr) :
    (e.flat run).2.map Prod.fst = e.ops := by
  match e with
  | term t =>
    rw [flat, ops]
    rfl
  | chain t _ o _ e => rw [flat, ops, map_cons, map_fst_flat run e]

theorem pri_lt_of_mem_ops (e : Expr) : ∀ o ∈ e.ops, o.pri < ifPriMax + 1 := by
  match e with
  | term t => exact fun o ho => nomatch ho
  | chain t _ o' _ e =>
    intro o ho
    rcases mem_cons.mp ho with rfl | ho
    · exact Nat.lt_succ_of_le (pri_le _ o'.2)
    · exact pri_lt_of_mem_ops e o ho

end Expr

section Run

variable {env : Env} {e : Expr} {r : Behind} {v lead tail : List QByte} {p : ℕ}

/-- What is behind a part of an expression is a smaller one, with the same properties. -/
def Within (env : Env) (e : Expr) (r : Behind) : Prop :=
  ∀ before o behind e', r = some (before, o, behind, e') → sizeOf e' < sizeOf e ∧ e'.Plain env

/-- `If_Token` reads a part of an expression at a priority, and gives the value of that part. -/
def ReadsAt (env : Env) (e : Expr) (p : ℕ) : Prop :=
  ∀ lead tail : List QByte, (∀ c ∈ lead, blank c = true) → (∀ c ∈ tail, blank c = true) →
    ∃ v r, Within env e r ∧
      right Operator.pri applyOp (p + 1) (e.flat rightValue) = (v, rest Operator.pri applyOp (p + 1) r.flat) ∧
      ∃ N, ∀ n ≥ N, ifToken env n (lead ++ (e.text ++ tail)) p = some (v, some (r.text ++ tail))

theorem dropWhile_blank (h : ∀ c ∈ tail, blank c = true) : tail.dropWhile blank = [] :=
  dropWhile_eq_nil_iff.mpr h

/-- Behind a part of an expression `If_Token` finds the operator that comes next. -/
theorem findOperator_behind (before : Gap) (o : TableOp) (behind : Gap) (s : List QByte) :
    (before.1 ++ (o.1.opname ++ (behind.1 ++ s))).dropWhile blank = o.1.opname ++ (behind.1 ++ s) ∧
      findOperator (o.1.opname ++ (behind.1 ++ s)) = some o.1 := by
  constructor
  · rw [dropWhile_append_of_pos before.2.2]
    obtain ⟨c, name, hname⟩ := exists_cons_of_ne_nil (opname_ne_nil o.1 o.2)
    have hc : blank c = false := (opname_clear o.2 (hname ▸ mem_cons_self)).1
    rw [hname, cons_append, dropWhile_cons_of_neg (by rw [hc]; exact Bool.false_ne_true)]
  · obtain ⟨c, gap, hgap⟩ := exists_cons_of_ne_nil behind.2.1
    rw [hgap]
    exact findOperator_eq o (behind.2.2 c (hgap ▸ mem_cons_self)) _

/-- What a call adds to the part that was read at the priority below: nothing, or an operator of its priority with
what is read behind it at the same priority. -/
theorem reads_step {text : List QByte} (hwithin : Within env e r)
    (hright : right Operator.pri applyOp p (e.flat rightValue) = (v, rest Operator.pri applyOp p r.flat))
    (hleft : ∃ N, ∀ n ≥ N, (if p = 0 then ifTokenTerm env (ifToken env n) text else ifToken env n text (p - 1)) =
      some (v, some (r.text ++ tail)))
    (hnext : ∀ e', sizeOf e' < sizeOf e → e'.Plain env → ReadsAt env e' p)
    (htail : ∀ c ∈ tail, blank c = true) :
    ∃ v r, Within env e r ∧
      right Operator.pri applyOp (p + 1) (e.flat rightValue) = (v, rest Operator.pri applyOp (p + 1) r.flat) ∧
      ∃ N, ∀ n ≥ N, ifToken env n text p = some (v, some (r.text ++ tail)) := by
  obtain ⟨N, hleft⟩ := hleft
  cases r with
  | none =>
    refine ⟨v, none, hwithin, right_succ_nil hright, N + 1, fun n hn => ?_⟩
    obtain ⟨m, rfl⟩ : ∃ m, n = m + 1 := ⟨n - 1, by omega⟩
    rw [ifToken, hleft m (by omega), bind_some]
    simp [Behind.text, dropWhile_blank htail, findOperator_nil]
  | some x =>
    obtain ⟨before, o, behind, e'⟩ := x
    obtain ⟨hsize, hplain⟩ := hwithin before o behind e' rfl
    have htext : Behind.text (some (before, o, behind, e')) ++ tail =
        before.1 ++ (o.1.opname ++ (behind.1 ++ (e'.text ++ tail))) := by
      rw [Behind.text]
      simp only [append_assoc]
    obtain ⟨hskip, hfind⟩ := findOperator_behind before o behind (e'.text ++ tail)
    rw [htext] at hleft
    by_cases hpri : p = o.1.pri
    · obtain ⟨w, r', hwithin', hright', N', hrun⟩ := hnext e' hsize hplain behind.1 tail behind.2.2 htail
      refine ⟨applyOp o.1 v w, r', fun before o behind e'' he'' => ?_, ?_, max N N' + 1, fun n hn => ?_⟩
      · obtain ⟨hsize', hrest⟩ := hwithin' before o behind e'' he''
        exact ⟨hsize'.trans hsize, hrest⟩
      · have happly := right_succ_apply (o := o.1) (b := (e'.flat rightValue).1) (r := (e'.flat rightValue).2) hright
          hpri.symm
        rw [happly]
        change (applyOp o.1 v (right Operator.pri applyOp (p + 1) (e'.flat rightValue)).1,
          (right Operator.pri applyOp (p + 1) (e'.flat rightValue)).2) = _
        rw [hright']
      · obtain ⟨m, rfl⟩ : ∃ m, n = m + 1 := ⟨n - 1, by omega⟩
        rw [ifToken, hleft m (by omega), bind_some]
        simp only [hskip, hfind]
        rw [if_pos hpri, drop_left, hrun m (by omega)]
        rfl
    · refine ⟨v, some (before, o, behind, e'), hwithin, right_succ_stop hright (Ne.symm hpri), N + 1, fun n hn => ?_⟩
      obtain ⟨m, rfl⟩ : ∃ m, n = m + 1 := ⟨n - 1, by omega⟩
      rw [ifToken, hleft m (by omega), bind_some]
      simp only [hskip, hfind]
      rw [if_neg hpri, htext]

/-- At the last priority the whole expression is read. -/
theorem value_of_right
    (hright : right Operator.pri applyOp (ifPriMax + 1) (e.flat rightValue) =
      (v, rest Operator.pri applyOp (ifPriMax + 1) r.flat)) :
    v = rightValue (e.flat rightValue) ∧ r = none := by
  have hops : ∀ o ∈ (e.flat rightValue).2.map Prod.fst, o.pri < ifPriMax + 1 := by
    rw [e.map_fst_flat]
    exact e.pri_lt_of_mem_ops
  have hend : (right Operator.pri applyOp (ifPriMax + 1) (e.flat rightValue)).2 = [] := right_snd_eq_nil hops
  rw [hright] at hend
  constructor
  · rw [rightValue, hright]
  · cases r with
    | none => rfl
    | some x => cases hend

theorem sizeOf_parens_lt {before behind : Gap} {e' : Expr} (h : e.first = .parens before e' behind) :
    sizeOf e' < sizeOf e := by
  cases e with
  | term t =>
    obtain rfl : t = .parens before e' behind := h
    simp only [Expr.term.sizeOf_spec, Term.parens.sizeOf_spec]
    omega
  | chain t _ _ _ e =>
    obtain rfl : t = .parens before e' behind := h
    simp only [Expr.chain.sizeOf_spec, Term.parens.sizeOf_spec]
    omega

theorem within_behind (hplain : e.Plain env) : Within env e e.behind := by
  intro before o behind e' he
  cases e with
  | term t => cases he
  | chain t before' o' behind' e =>
    cases he
    refine ⟨?_, hplain.2⟩
    simp only [Expr.chain.sizeOf_spec]
    omega

/-- The first term is read, where the expressions in its parentheses are. -/
theorem term_first (hplain : e.Plain env) (hinner : ∀ e', sizeOf e' < sizeOf e → e'.Plain env → ReadsAt env e' ifPriMax)
    (hlead : ∀ c ∈ lead, blank c = true) (htail : tail.head?.all blank = true) :
    ∃ N, ∀ n ≥ N, ifTokenTerm env (ifToken env n) (lead ++ (e.first.text ++ tail)) =
      some (e.first.value rightValue, some tail) := by
  have hfirst : e.first.Plain env := by
    cases e with
    | term t => exact hplain
    | chain t _ _ _ e => exact hplain.1
  cases hterm : e.first with
  | literal d =>
    rw [hterm] at hfirst
    obtain ⟨hvar, hshort⟩ : env.cvar d.1 = none ∧ d.1.length ≤ tokenMax := hfirst
    rw [Term.text, Term.value]
    exact ⟨0, fun n _ => term_literal d hvar hshort hlead htail⟩
  | parens before e' behind =>
    rw [hterm] at hfirst
    obtain ⟨v, r, -, hright, N, hrun⟩ := hinner e' (sizeOf_parens_lt hterm) hfirst before.1 behind.1
      before.2.2 behind.2.2
    obtain ⟨hv, hr⟩ := value_of_right hright
    subst hr
    rw [hv] at hrun
    rw [Term.value]
    exact ⟨N, fun n hn => term_parens before behind e' hlead (hrun n hn)⟩

theorem all_blank_behind (r : Behind) (htail : ∀ c ∈ tail, blank c = true) :
    (r.text ++ tail).head?.all blank = true := by
  cases r with
  | none =>
    cases tail with
    | nil => rfl
    | cons c tail => exact htail c (.head _)
  | some x =>
    obtain ⟨c, gap, hgap⟩ := exists_cons_of_ne_nil x.1.2.1
    rw [Behind.text, hgap]
    exact x.1.2.2 c (hgap ▸ mem_cons_self)

/-- Every part of an expression is read. -/
theorem readsAt (env : Env) (e : Expr) (hplain : e.Plain env) (p : ℕ) : ReadsAt env e p := by
  induction hsize : sizeOf e using Nat.strong_induction_on generalizing e p with
  | _ size ih =>
    subst hsize
    have hsmaller (p : ℕ) (e' : Expr) (h : sizeOf e' < sizeOf e) (hplain' : e'.Plain env) : ReadsAt env e' p :=
      ih _ h e' hplain' p rfl
    induction p with
    | zero =>
      intro lead tail hlead htail
      refine reads_step (within_behind hplain) (v := e.first.value rightValue) ?_ ?_ (hsmaller 0) htail
      · rw [e.flat_eq, right_zero]
      · obtain ⟨N, hterm⟩ := term_first hplain (hsmaller ifPriMax) hlead (all_blank_behind e.behind htail)
        refine ⟨N, fun n hn => ?_⟩
        rw [if_pos rfl, e.text_eq, append_assoc, hterm n hn]
    | succ p ihp =>
      intro lead tail hlead htail
      obtain ⟨v, r, hwithin, hright, hrun⟩ := ihp lead tail hlead htail
      exact reads_step hwithin hright hrun (hsmaller (p + 1)) htail

end Run

/-- `If_Token` gives an expression its value from the right. -/
theorem ifToken_eq_rightValue (env : Env) (e : Expr) (lead tail : List QByte) (hlead : ∀ c ∈ lead, blank c = true)
    (htail : ∀ c ∈ tail, blank c = true) (hplain : e.Plain env) :
    ∃ N, ∀ n ≥ N, ifToken env n (lead ++ (e.text ++ tail)) ifPriMax =
      some (rightValue (e.flat rightValue), some tail) := by
  obtain ⟨v, r, -, hright, N, hrun⟩ := readsAt env e hplain ifPriMax lead tail hlead htail
  obtain ⟨hv, hr⟩ := value_of_right hright
  subst hr
  rw [hv, Behind.text, nil_append] at hrun
  exact ⟨N, hrun⟩

mutual

/-- From the left and from the right, a term has the same value. -/
theorem Term.value_eq : (t : Term) → t.Associates → t.value tableValue = t.value rightValue
  | .literal d, _ => by rw [Term.value, Term.value]
  | .parens _ e _, h => by
    rw [Term.Associates] at h
    rw [Term.value, Term.value, Expr.flat_eq_right e h.2, tableValue,
      left_eq_right _ (by rw [e.map_fst_flat]; exact h.1), rightValue]

theorem Expr.flat_eq_right : (e : Expr) → e.TermsAssociate → e.flat tableValue = e.flat rightValue
  | .term t, h => by rw [Expr.flat, Expr.flat, Term.value_eq t h]
  | .chain t _ o _ e, h => by rw [Expr.flat, Expr.flat, Term.value_eq t h.1, Expr.flat_eq_right e h.2]

end

/-- **`If_Token` gives an expression its value by the table, and `is_true` its truth, where operators of equal priority
that come next to each other associate.** -/
theorem ifToken_eq_value (env : Env) (e : Expr) (lead tail : List QByte) (hlead : ∀ c ∈ lead, blank c = true)
    (htail : ∀ c ∈ tail, blank c = true) (hplain : e.Plain env) (hassoc : e.Associates) :
    ∃ N, ∀ n ≥ N, ifToken env n (lead ++ (e.text ++ tail)) ifPriMax = some (e.value, some tail) ∧
      ifEvaluateBoolean env n (lead ++ (e.text ++ tail)) = some (isTrue e.value) := by
  have hvalue : rightValue (e.flat rightValue) = e.value := by
    rw [Expr.value, e.flat_eq_right hassoc.2, tableValue, left_eq_right _ (by rw [e.map_fst_flat]; exact hassoc.1),
      rightValue]
  obtain ⟨N, hrun⟩ := ifToken_eq_rightValue env e lead tail hlead htail hplain
  rw [hvalue] at hrun
  refine ⟨N, fun n hn => ⟨hrun n hn, ?_⟩⟩
  rw [ifEvaluateBoolean, hrun n hn, Option.map_some]

/-- Without cvars. -/
def noCvars : Env := ⟨fun _ => none, fun _ => 0, fun _ => []⟩

/-- A digit as an expression. -/
def digit (c : { c : QByte // CmdIf.isDigit c = true }) : Term := .literal ⟨[c.1], by simp, by simpa using c.2⟩

/-- `t - e`. -/
def minus (t : Term) (e : Expr) : Expr :=
  .chain t ⟨[32], by decide⟩ ⟨⟨[0x2d], 4, .sub⟩, by decide⟩ ⟨[32], by decide⟩ e

/-- `( 8 - 3 ) - 2`. -/
def innerFirst : Expr :=
  minus
    (.parens ⟨[32], by decide⟩ (minus (digit ⟨0x38, by decide⟩) (.term (digit ⟨0x33, by decide⟩))) ⟨[32], by decide⟩)
    (.term (digit ⟨0x32, by decide⟩))

theorem innerFirst_associates : innerFirst.Associates := by
  have hsingle : Precedence.Associates Operator.pri applyOp [(⟨[0x2d], 4, .sub⟩ : Operator)] := by
    intro p
    rw [filter_cons, filter_nil]
    split
    · exact isChain_singleton _
    · exact isChain_nil
  exact ⟨hsingle, ⟨hsingle, trivial, trivial⟩, trivial⟩

theorem innerFirst_value : innerFirst.value = [0x33] := by decide +kernel

/-- Without cvars, `( 8 - 3 ) - 2` is 3, and so it is true. -/
theorem ifToken_eq_value_minus :
    ∃ N, ∀ n ≥ N, ifToken noCvars n ([] ++ (innerFirst.text ++ [])) ifPriMax = some ([0x33], some []) ∧
      ifEvaluateBoolean noCvars n ([] ++ (innerFirst.text ++ [])) = some (isTrue [0x33]) := by
  have hvalue := ifToken_eq_value noCvars innerFirst [] [] (fun _ h => nomatch h) (fun _ h => nomatch h)
    ⟨⟨⟨rfl, by decide⟩, rfl, by decide⟩, rfl, by decide⟩ innerFirst_associates
  rwa [innerFirst_value] at hvalue

/-- `8 - 3 - 2`. -/
def chained : Expr :=
  minus (digit ⟨0x38, by decide⟩) (minus (digit ⟨0x33, by decide⟩) (.term (digit ⟨0x32, by decide⟩)))

/-- By the table `8 - 3 - 2` is 3, and `If_Token` gives 7, that is 8 - (3 - 2). -/
theorem ifToken_ne_value :
    chained.text = chars ['8', ' ', '-', ' ', '3', ' ', '-', ' ', '2'] ∧ chained.value = [0x33] ∧
      ∃ N, ∀ n ≥ N, ifToken noCvars n chained.text ifPriMax = some ([0x37], some []) := by
  refine ⟨by decide +kernel, by decide +kernel, ?_⟩
  have hright : rightValue (chained.flat rightValue) = [0x37] := by decide +kernel
  obtain ⟨N, hrun⟩ := ifToken_eq_rightValue noCvars chained [] [] (fun _ h => nomatch h)
    (fun _ h => nomatch h) ⟨⟨rfl, by decide⟩, ⟨rfl, by decide⟩, rfl, by decide⟩
  rw [hright, List.nil_append, List.append_nil] at hrun
  exact ⟨N, hrun⟩

/-! ## Operators that associate -/

/-- Texts that tell operators of equal priority apart. -/
def probes : List (List QByte × List QByte × List QByte) :=
  [(chars ['3'], chars ['1', '0', '4', '8', '5', '7', '5'], chars ['1', '0', '4', '8', '5', '7', '5']),
    (chars ['0'], chars ['0'], chars ['1']),
    (chars ['8'], chars ['1', '0', '4', '8', '5', '7', '5'], chars ['1']),
    (chars ['1'], chars ['2'], chars ['0'])]

/-- The operations of a priority. -/
def opsOf (p : ℕ) : List IfOp := ((ifops.filter fun o => o.pri = p).map Operator.op).dedup

theorem op_mem_opsOf {o : Operator} (ho : o ∈ ifops) : o.op ∈ opsOf o.pri :=
  mem_dedup.mpr (mem_map_of_mem (mem_filter.mpr ⟨ho, decide_eq_true rfl⟩))

theorem probes_tell : ∀ p ≤ ifPriMax, ∀ op ∈ opsOf p, ∀ op' ∈ opsOf p,
    (∀ x ∈ probes, ifOperator op' (ifOperator op x.1 x.2.1) x.2.2 = ifOperator op x.1 (ifOperator op' x.2.1 x.2.2)) →
      op = op' ∧ op ∈ [IfOp.cat, .la, .lo] := by
  decide +kernel

/-- Operators of equal priority associate when both are `cat`, both are `&&` or both are `||`, and no others do. -/
theorem associate_iff (o o' : TableOp) (hpri : o.1.pri = o'.1.pri) :
    Associate applyOp o.1 o'.1 ↔ o.1.op = o'.1.op ∧ o.1.op ∈ [IfOp.cat, .la, .lo] := by
  constructor
  · intro h
    exact probes_tell o.1.pri (pri_le o.1 o.2) o.1.op (op_mem_opsOf o.2) o'.1.op (hpri ▸ op_mem_opsOf o'.2)
      fun x _ => h x.1 x.2.1 x.2.2
  · rintro ⟨hop, hmem⟩
    simp only [mem_cons, not_mem_nil, or_false] at hmem
    rcases hmem with hcat | hla | hlo
    · exact associate_cat hcat (hop ▸ hcat)
    · exact associate_la hla (hop ▸ hla)
    · exact associate_lo hlo (hop ▸ hlo)

theorem associate_iff_div : ¬Associate applyOp ⟨chars ['*'], 3, .mul⟩ ⟨chars ['/'], 3, .div⟩ := fun h =>
  absurd ((associate_iff ⟨⟨chars ['*'], 3, .mul⟩, by decide⟩ ⟨⟨chars ['/'], 3, .div⟩, by decide⟩ rfl).1 h) (by decide)

end IfToken

end FteQuake
