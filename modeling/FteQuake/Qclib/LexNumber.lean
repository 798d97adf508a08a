import FteQuake.Common.Sizebuf
import FteQuake.Lib.FloatFormat
import Mathlib.Data.Nat.Digits.Defs

/-!
# Numbers in the source

`QCC_PR_LexNumber` of `qclib/qcc_pr_lex.c`: the token, the immediate with its type, what is left of the source and the
warnings. A text is what is left of the source, up to its terminator.

An integer literal is a sign, a base with its prefix, digits and a suffix. What the lexer makes of it is
`lexNumber_literal`: integer types hold it by two's complement, `float` and `double` the nearest number.
-/

namespace FteQuake

open List Option

namespace LexNumber

open CFloat BinaryFloat

/-! ## The code -/

/-- `flag_ILP32`, `flag_assume_integer`, `flag_assume_double` and `flag_qccx`. -/
structure Flags where
  ilp32 : Bool
  assumeInteger : Bool
  assumeDouble : Bool
  qccx : Bool

/-- `pr_immediate_type`. -/
inductive Ty
  | float
  | double
  | integer
  | uint
  | int64
  | uint64
  deriving DecidableEq

/-- The member of `pr_immediate` that is written. -/
inductive Eval
  | float (x : CFloat)
  | double (x : CFloat)
  | int (b : BitVec 32)
  | i64 (b : BitVec 64)
  deriving DecidableEq

inductive Warning
  | octalImmediate
  | overflow
  | notANumber
  deriving DecidableEq

/-- `sizeof(pr_token)`. -/
def tokenSize : ℕ := 8192

/-- `pr_token[tokenlen++] = c`, if that is in the buffer. -/
def put (token : List QByte) (c : QByte) : Option (List QByte) :=
  if token.length < tokenSize then some (token ++ [c]) else none

/-- What is known after a number. -/
structure Lexed where
  token : List QByte
  type : Ty
  immediate : Eval
  file : List QByte
  warnings : List Warning
  deriving DecidableEq

/-- A `longlong` as a `float`. -/
def toSingle (n : BitVec 64) : CFloat := .finite (n.toInt < 0) (roundTo 24 (-149) |(n.toInt : ℚ)|)

/-- A `longlong` as a `double`. -/
def toDouble (n : BitVec 64) : CFloat := .finite (n.toInt < 0) (roundTo 53 (-1074) |(n.toInt : ℚ)|)

/-- The conversion to a `longlong`. The processor has the least one for numbers out of range. -/
def toLonglong : CFloat → BitVec 64
  | .finite s m =>
    if -2 ^ 63 ≤ trunc (signed s m) ∧ trunc (signed s m) < 2 ^ 63 then BitVec.ofInt 64 (trunc (signed s m))
    else BitVec.intMin 64
  | _ => BitVec.intMin 64

def isDigit (c : QByte) : Bool := 0x30 ≤ c && c ≤ 0x39

def isF (c : QByte) : Bool := c = 0x66 || c = 0x46

def isD (c : QByte) : Bool := c = 0x64 || c = 0x44

def isI (c : QByte) : Bool := c = 0x69 || c = 0x49

def isU (c : QByte) : Bool := c = 0x75 || c = 0x55

def isL (c : QByte) : Bool := c = 0x6c || c = 0x4c

/-- The next byte is taken over into the token if it passes a test. -/
def accept (test : QByte → Bool) (token : List QByte) : List QByte → Option (Option QByte × List QByte × List QByte)
  | [] => some (none, token, [])
  | c :: s => if test c then (put token c).map fun token => (some c, token, s) else some (none, token, c :: s)

/-- The prefix of a number: its base, a warning, the token and what is behind. -/
def lexBase (token s : List QByte) : Option (ℕ × List Warning × List QByte × List QByte) :=
  if s.head? = some 0x30 ∧ (s.tail.head? = some 0x78 ∨ s.tail.head? = some 0x58) then
    (put token 0x30).bind fun token => (put token 0x78).map fun token => (16, [], token, s.drop 2)
  else if s.head? = some 0x30 then
    (put token 0x30).map fun token => (8, if s.tail.head?.any isDigit then [.octalImmediate] else [], token, s.tail)
  else some (10, [], token, s)

/-- The value of a digit of a base. -/
def digit (base : ℕ) (c : QByte) : Option ℕ :=
  if 0x30 ≤ c ∧ c ≤ 0x39 ∧ c.toNat < 0x30 + base then some (c.toNat - 0x30)
  else if 0x61 ≤ c ∧ c ≤ 0x7a ∧ c.toNat < 0x61 + base - 10 then some (c.toNat - 0x61 + 10)
  else if 0x41 ≤ c ∧ c ≤ 0x5a ∧ c.toNat < 0x41 + base - 10 then some (c.toNat - 0x41 + 10)
  else none

/-- The loop over the digits: the token, `num` and what is behind. -/
def lexDigits (base : ℕ) : List QByte → BitVec 64 → List QByte → Option (List QByte × BitVec 64 × List QByte)
  | token, num, [] => some (token, num, [])
  | token, num, c :: s =>
    match digit base c with
    | some d => (put token c).bind fun token => lexDigits base token (num * BitVec.ofNat 64 base + BitVec.ofNat 64 d) s
    | none => some (token, num, c :: s)

/-- The digits behind a point. -/
def lexFraction : List QByte → List QByte → Option (List QByte × List QByte)
  | token, [] => some (token, [])
  | token, c :: s =>
    if isDigit c then (put token c).bind fun token => lexFraction token s else some (token, c :: s)

/-- A suffix that begins with `c`: `islong`, `isunsigned`, the token and what is behind. -/
def lexSuffix (c : QByte) (token s : List QByte) : Option (ℕ × Bool × List QByte × List QByte) :=
  if isL c then
    (accept (fun x => x = c) token s).bind fun r =>
      (accept (fun x => isI x || isU x) r.2.1 r.2.2).map fun r' =>
        (if r.1.isSome then 2 else 1, r'.1.any isU, r'.2)
  else
    (accept isL token s).bind fun r =>
      if r.1.isNone then some (0, isU c, r.2)
      else (accept (fun x => some x = r.1) r.2.1 r.2.2).map fun r' => (if r'.1.isSome then 2 else 1, isU c, r'.2)

/-- The warning behind `pr_immediate._int = num`. -/
def intOverflow (num : BitVec 64) : List Warning :=
  let i := (num.setWidth 32).signExtend 64
  if i ≠ num ∧ i &&& 0xffffffff80000000 ≠ 0xffffffff80000000 then [.overflow] else []

/-- The warning behind a conversion to a floating point number. -/
def floatOverflow (x : CFloat) (num : BitVec 64) : List Warning := if toLonglong x ≠ num then [.overflow] else []

/-- The type of a number without a suffix. -/
def plainType (flags : Flags) (num : BitVec 64) : Ty :=
  if flags.assumeInteger then
    if num.toNat > 0x7fffffffffffffff then .uint64
    else if num.toInt > 0xffffffff then .int64
    else if num.toInt > 0x7fffffff then .uint
    else .integer
  else .float

/-- The immediate of a number without a suffix. `n` is `num*sign`. -/
def plain (flags : Flags) (base : ℕ) (num n : BitVec 64) : Ty × Eval × List Warning :=
  if !flags.assumeInteger && (flags.qccx && base = 16) then (.float, .int (n.setWidth 32), intOverflow n)
  else match plainType flags num with
    | .int64 => (.int64, .i64 n, [])
    | .uint64 => (.uint64, .i64 n, [])
    | .integer => (.integer, .int (n.setWidth 32), intOverflow n)
    | .uint => (.uint, .int (n.setWidth 32), intOverflow n)
    | _ => (.float, .float (toSingle n), if base = 16 then floatOverflow (toSingle n) n else [])

/-- The immediate of a number with an integer suffix. `n` is `num*sign`. -/
def suffixed (flags : Flags) (islong : ℕ) (isunsigned : Bool) (n : BitVec 64) : Ty × Eval × List Warning :=
  if islong ≥ (if flags.ilp32 then 2 else 1) then (if isunsigned then .uint64 else .int64, .i64 n, [])
  else (if isunsigned then .uint else .integer, .int (n.setWidth 32), intOverflow n)

/-- `checkjunk`. -/
def isJunk (c : QByte) : Bool :=
  (0x61 ≤ c && c ≤ 0x7a) || (0x41 ≤ c && c ≤ 0x5a) || c = 0x5f || isDigit c || 0x80 ≤ c

/-- The terminator of the token, and the last test. -/
def finish (token : List QByte) (r : Ty × Eval × List Warning) (s : List QByte) : Option Lexed :=
  (put token 0).map fun token => ⟨token, r.1, r.2.1, s, r.2.2 ++ if s.head?.any isJunk then [.notANumber] else []⟩

/-- What is behind the digits. `n` is `num*sign`. -/
def lexTail (flags : Flags) (base : ℕ) (num n : BitVec 64) (token : List QByte) : List QByte → Option Lexed
  | [] => finish token (plain flags base num n) []
  | c :: s =>
    if c = 0x2e ∧ s.head? ≠ some 0x2e then
      (put token c).bind fun token =>
        (lexFraction token s).bind fun r =>
          let isDouble := if r.2.head?.any isF then false else if r.2.head?.any isD then true else flags.assumeDouble
          let s := if r.2.head?.any fun c => isF c || isD c then r.2.tail else r.2
          if isDouble then finish r.1 (.double, .double (strtod r.1), []) s
          else finish r.1 (.float, .float (strtod r.1).single, []) s
    else if isF c then
      (put token c).bind fun token => finish token (.float, .float (toSingle n), floatOverflow (toSingle n) n) s
    else if isD c then
      (put token c).bind fun token => finish token (.double, .double (toDouble n), floatOverflow (toDouble n) n) s
    else if isI c || isU c || isL c then
      (put token c).bind fun token =>
        (lexSuffix c token s).bind fun r => finish r.2.2.1 (suffixed flags r.1 r.2.1 n) r.2.2.2
    else finish token (plain flags base num n) (c :: s)

/-- `QCC_PR_LexNumber`. There is no result if a byte is written behind the buffer of the token. -/
def lexNumber (flags : Flags) (s : List QByte) : Option Lexed :=
  (accept (fun c => c = 0x2d) [] s).bind fun r =>
    (lexBase r.2.1 r.2.2).bind fun b =>
      (lexDigits b.1 b.2.2.1 0 b.2.2.2).bind fun d =>
        (lexTail flags b.1 d.2.1 (if r.1.isSome then -d.2.1 else d.2.1) d.1 d.2.2).map fun l =>
          { l with warnings := b.2.1 ++ l.warnings }

/-! ## Literals -/

/-- The base of a literal, with the letter of the prefix. -/
inductive Base
  | decimal
  | octal
  | hexadecimal (upper : Bool)

def Base.radix : Base → ℕ
  | .decimal => 10
  | .octal => 8
  | .hexadecimal _ => 16

def Base.text : Base → List QByte
  | .decimal => []
  | .octal => [0x30]
  | .hexadecimal upper => [0x30, if upper then 0x58 else 0x78]

/-- `i` or `u`, in both cases. -/
def SignLetter := { c : QByte // (isI c || isU c) = true }

/-- `l` or `ll`, in both cases. -/
structure Long where
  letter : QByte
  isL : isL letter = true
  two : Bool

def Long.text (l : Long) : List QByte := l.letter :: if l.two then [l.letter] else []

def Long.count (l : Long) : ℕ := if l.two then 2 else 1

/-- A suffix, where the length and the sign can be in both orders. -/
inductive Suffix
  | none
  | float (c : { c : QByte // isF c = true })
  | double (c : { c : QByte // isD c = true })
  | sign (c : SignLetter)
  | signLong (c : SignLetter) (l : Long)
  | long (l : Long)
  | longSign (l : Long) (c : SignLetter)

namespace Suffix

def text : Suffix → List QByte
  | none => []
  | float c => [c.1]
  | double c => [c.1]
  | sign c => [c.1]
  | signLong c l => c.1 :: l.text
  | long l => l.text
  | longSign l c => l.text ++ [c.1]

def IsFloating : Suffix → Prop
  | float _ => True
  | double _ => True
  | _ => False

end Suffix

/-- An integer literal. -/
structure Literal where
  minus : Bool
  base : Base
  digits : List QByte
  suffix : Suffix
  digit : ∀ c ∈ digits, (digitValue base.radix c).isSome
  ne_nil : base ≠ .octal → digits ≠ []
  first : base = .decimal → digits.head? ≠ some 0x30
  suffix_of_hexadecimal : ∀ upper, base = .hexadecimal upper → ¬ suffix.IsFloating

namespace Literal

def text (l : Literal) : List QByte :=
  (if l.minus then [0x2d] else []) ++ (l.base.text ++ (l.digits ++ l.suffix.text))

/-- The number without its sign. -/
def magnitude (l : Literal) : ℕ :=
  Nat.ofDigits l.base.radix (l.digits.reverse.map fun c => (digitValue l.base.radix c).getD 0)

def value (l : Literal) : ℤ := if l.minus then -l.magnitude else l.magnitude

/-- The type of a literal: with an integer suffix the one that it names, without one `float`, or with `flag_assume_integer`
an integer type by the size of the number. -/
def type (flags : Flags) (l : Literal) : Ty :=
  let named (longs : ℕ) (u : Bool) : Ty :=
    if longs ≥ (if flags.ilp32 then 2 else 1) then (if u then .uint64 else .int64) else if u then .uint else .integer
  match l.suffix with
  | .none =>
    if flags.assumeInteger then
      if l.magnitude ≥ 2 ^ 63 then .uint64 else if l.magnitude ≥ 2 ^ 32 then .int64
      else if l.magnitude ≥ 2 ^ 31 then .uint else .integer
    else .float
  | .float _ => .float
  | .double _ => .double
  | .sign c => named 0 (isU c.1)
  | .signLong c long => named long.count (isU c.1)
  | .long long => named long.count false
  | .longSign long c => named long.count (isU c.1)

end Literal

/-- A text that does not continue a number. -/
def Ends (s : List QByte) : Prop := s.head?.any isJunk = false ∧ (s.head? = some 0x2e → s.tail.head? = some 0x2e)

/-- An immediate holds a number: integers by two's complement, of 32 bits those that are `int` or `unsigned int`. -/
def Eval.Represents (v : ℤ) : Eval → Prop
  | .float x => ∃ s m, x = .finite s m ∧ signed s m = v
  | .double x => ∃ s m, x = .finite s m ∧ signed s m = v
  | .int b => b = BitVec.ofInt 32 v ∧ -2 ^ 31 ≤ v ∧ v < 2 ^ 32
  | .i64 b => b = BitVec.ofInt 64 v

/-! ## Tokens -/

section Tokens

variable {token s : List QByte} {c : QByte} {test : QByte → Bool} {base : ℕ}

theorem put_of_lt (h : token.length < tokenSize) : put token c = some (token ++ [c]) := if_pos h

theorem accept_cons (hc : test c = true) (h : token.length < tokenSize) :
    accept test token (c :: s) = some (some c, token ++ [c], s) := by
  rw [accept, if_pos hc, put_of_lt h]
  rfl

theorem accept_of_head (h : s.head?.any test = false) : accept test token s = some (none, token, s) := by
  cases s with
  | nil => rfl
  | cons c s => rw [accept, if_neg (by simpa using h)]

/-- The three tests of the loop find the digits of a base. -/
theorem digit_eq (hbase : base = 8 ∨ base = 10 ∨ base = 16) (c : QByte) : digit base c = digitValue base c := by
  have hall : ∀ c : QByte, digit 8 c = digitValue 8 c ∧ digit 10 c = digitValue 10 c ∧ digit 16 c = digitValue 16 c := by
    decide +kernel
  rcases hbase with rfl | rfl | rfl
  · exact (hall c).1
  · exact (hall c).2.1
  · exact (hall c).2.2

/-- What the letters of a suffix are not. -/
theorem letter_facts : ∀ c : QByte,
    (isF c = true → c ≠ 0x2e) ∧ (isD c = true → c ≠ 0x2e ∧ isF c = false) ∧
    ((isI c || isU c || isL c) = true → c ≠ 0x2e ∧ isF c = false ∧ isD c = false) ∧
    ((isI c || isU c) = true → isL c = false) := by
  decide +kernel

/-- Letters and digits continue a number. -/
theorem isJunk_facts : ∀ c : QByte,
    ((isF c || isD c || isI c || isU c || isL c || isDigit c) = true → isJunk c = true) ∧
    (((digit 8 c).isSome || (digit 10 c).isSome || (digit 16 c).isSome) = true → isJunk c = true) := by
  decide +kernel

theorem Ends.head (hs : Ends s) (h : ∀ c, test c = true → isJunk c = true) : s.head?.any test = false := by
  cases s with
  | nil => rfl
  | cons c s =>
    have hjunk : isJunk c = false := by simpa using hs.1
    rw [head?_cons, any_some, ← Bool.not_eq_true]
    intro hc
    rw [h c hc] at hjunk
    cases hjunk

theorem Ends.head?_ne (hs : Ends s) (hc : isJunk c = true) : s.head? ≠ some c := by
  intro h
  have hjunk := hs.1
  rw [h, any_some, hc] at hjunk
  cases hjunk

end Tokens

/-! ## Digits -/

section Digits

variable {token s ds : List QByte} {base : ℕ}

/-- The digits are read behind a number. -/
def horner (base n : ℕ) (ds : List QByte) : ℕ := ds.foldl (fun n c => n * base + (digitValue base c).getD 0) n

theorem horner_eq (base : ℕ) (ds : List QByte) :
    horner base 0 ds = Nat.ofDigits base (ds.reverse.map fun c => (digitValue base c).getD 0) := by
  induction ds using List.reverseRecOn with
  | nil => rfl
  | append_singleton ds c ih =>
    have hlast : horner base 0 (ds ++ [c]) = horner base 0 ds * base + (digitValue base c).getD 0 := by simp [horner]
    rw [hlast, ih, reverse_append, reverse_singleton, singleton_append, map_cons, Nat.ofDigits_cons]
    ring

theorem lexDigits_append (hbase : base = 8 ∨ base = 10 ∨ base = 16) (hds : ∀ c ∈ ds, (digitValue base c).isSome)
    (hs : s.head?.any (fun c => (digit base c).isSome) = false) (hlen : token.length + ds.length ≤ tokenSize) (n : ℕ) :
    lexDigits base token (BitVec.ofNat 64 n) (ds ++ s) =
      some (token ++ ds, BitVec.ofNat 64 (horner base n ds), s) := by
  induction ds generalizing token n with
  | nil =>
    cases s with
    | nil => simp [lexDigits, horner]
    | cons c s =>
      have hc : digit base c = none := by simpa using hs
      simp [lexDigits, horner, hc]
  | cons c ds ih =>
    obtain ⟨d, hd⟩ := isSome_iff_exists.mp (hds c mem_cons_self)
    rw [length_cons] at hlen
    have hnext : BitVec.ofNat 64 n * BitVec.ofNat 64 base + BitVec.ofNat 64 d = BitVec.ofNat 64 (n * base + d) := by
      rw [BitVec.ofNat_add, BitVec.ofNat_mul]
    rw [cons_append, lexDigits, digit_eq hbase, hd]
    simp only [put_of_lt (show token.length < tokenSize by omega), bind_some, hnext]
    rw [ih (fun c hc => hds c (mem_cons_of_mem _ hc)) (by simp; omega), append_assoc, horner, horner,
      foldl_cons, hd]
    rfl

end Digits

/-! ## Suffixes -/

section Suffixes

variable {token s : List QByte} {c : QByte}

/-- The immediate of a suffix. -/
def Suffix.result (flags : Flags) (base : ℕ) (num n : BitVec 64) : Suffix → Ty × Eval × List Warning
  | none => plain flags base num n
  | float _ => (.float, .float (toSingle n), floatOverflow (toSingle n) n)
  | double _ => (.double, .double (toDouble n), floatOverflow (toDouble n) n)
  | sign c => suffixed flags 0 (isU c.1) n
  | signLong c l => suffixed flags l.count (isU c.1) n
  | long l => suffixed flags l.count false n
  | longSign l c => suffixed flags l.count (isU c.1) n

theorem finish_of_ends (hs : Ends s) (h : token.length < tokenSize) (r : Ty × Eval × List Warning) :
    finish token r s = some ⟨token ++ [0], r.1, r.2.1, s, r.2.2⟩ := by
  rw [finish, put_of_lt h, hs.1]
  simp

theorem lexTail_letter (flags : Flags) (base : ℕ) (num n : BitVec 64) (hc : (isI c || isU c || isL c) = true) :
    lexTail flags base num n token (c :: s) = (put token c).bind fun token =>
      (lexSuffix c token s).bind fun r => finish r.2.2.1 (suffixed flags r.1 r.2.1 n) r.2.2.2 := by
  obtain ⟨hpoint, hf, hd⟩ := (letter_facts c).2.2.1 hc
  rw [lexTail, if_neg fun h => hpoint h.1, hf, if_neg (by simp), hd, if_neg (by simp), if_pos hc]
/-- The second letter of a length is taken if it is there. -/
theorem accept_long {test : QByte → Bool} (l : Long) (htest : ∀ x, test x = true ↔ x = l.letter)
    (hs : s.head? ≠ some l.letter) (hlen : token.length + (if l.two then 1 else 0) ≤ tokenSize) :
    accept test token ((if l.two then [l.letter] else []) ++ s) =
      some (if l.two then some l.letter else none, token ++ (if l.two then [l.letter] else []), s) := by
  cases htwo : l.two with
  | true =>
    rw [htwo] at hlen
    exact accept_cons ((htest _).mpr rfl) hlen
  | false =>
    have hhead : s.head?.any test = false := by
      cases s with
      | nil => rfl
      | cons c s => exact Bool.eq_false_iff.mpr fun hc => hs (congrArg some ((htest c).mp hc))
    simpa using accept_of_head hhead

theorem isSome_two (l : Long) :
    (if (if l.two then some l.letter else none).isSome then 2 else 1) = l.count := by
  cases htwo : l.two <;> simp [Long.count, htwo]

theorem lexSuffix_sign (hc : (isI c || isU c) = true) (hs : Ends s) : lexSuffix c token s = some (0, isU c, token, s) := by
  have hl : s.head?.any isL = false := hs.head fun x hx => (isJunk_facts x).1 (by simp [hx])
  rw [lexSuffix, (letter_facts c).2.2.2 hc]
  simp [accept_of_head hl]

theorem lexSuffix_signLong (hc : (isI c || isU c) = true) (l : Long) (hs : Ends s)
    (hlen : token.length + l.text.length ≤ tokenSize) :
    lexSuffix c token (l.text ++ s) = some (l.count, isU c, token ++ l.text, s) := by
  have hsize : token.length + 1 + (if l.two then 1 else 0) ≤ tokenSize := by
    cases htwo : l.two <;> simp_all [Long.text, add_assoc]
  have hhead : s.head? ≠ some l.letter := hs.head?_ne ((isJunk_facts _).1 (by simp [l.isL]))
  have hfirst : accept isL token (l.text ++ s) =
      some (some l.letter, token ++ [l.letter], (if l.two then [l.letter] else []) ++ s) :=
    accept_cons l.isL (by omega)
  rw [lexSuffix, (letter_facts c).2.2.2 hc, if_neg (by simp), hfirst, bind_some, isNone_some, if_neg (by simp),
    accept_long l (by simp) hhead (by simpa using hsize), map_some, isSome_two, append_assoc]
  rfl

theorem lexSuffix_long (l : Long) (hs : Ends s) (hlen : token.length + (if l.two then 1 else 0) ≤ tokenSize) :
    lexSuffix l.letter token ((if l.two then [l.letter] else []) ++ s) =
      some (l.count, false, token ++ (if l.two then [l.letter] else []), s) := by
  have hhead : s.head? ≠ some l.letter := hs.head?_ne ((isJunk_facts _).1 (by simp [l.isL]))
  have hsign : s.head?.any (fun x => isI x || isU x) = false := hs.head fun x hx => (isJunk_facts x).1 (by
    rw [Bool.or_eq_true] at hx
    rcases hx with hx | hx <;> simp [hx])
  rw [lexSuffix, if_pos l.isL, accept_long l (by simp) hhead hlen, bind_some, accept_of_head hsign, map_some,
    isSome_two]
  rfl

theorem lexSuffix_longSign (l : Long) (hc : (isI c || isU c) = true)
    (hlen : token.length + (if l.two then 1 else 0) < tokenSize) :
    lexSuffix l.letter token ((if l.two then [l.letter] else []) ++ c :: s) =
      some (l.count, isU c, token ++ (if l.two then [l.letter] else []) ++ [c], s) := by
  have hhead : (c :: s).head? ≠ some l.letter := by
    intro h
    have hl := l.isL
    rw [← some.inj h, (letter_facts c).2.2.2 hc] at hl
    cases hl
  have hsign : (token ++ if l.two then [l.letter] else []).length < tokenSize := by
    cases htwo : l.two <;> simp_all
  rw [lexSuffix, if_pos l.isL, accept_long l (by simp) hhead hlen.le, bind_some, accept_cons hc hsign, map_some,
    isSome_two]
  rfl

/-- What is behind the digits is the immediate of the suffix. -/
theorem lexTail_suffix (flags : Flags) (base : ℕ) (num n : BitVec 64) (u : Suffix) (hs : Ends s)
    (hlen : token.length + u.text.length < tokenSize) :
    lexTail flags base num n token (u.text ++ s) =
      some ⟨token ++ u.text ++ [0], (u.result flags base num n).1, (u.result flags base num n).2.1, s,
        (u.result flags base num n).2.2⟩ := by
  have hput (c : QByte) (h : token.length < tokenSize) : put token c = some (token ++ [c]) := put_of_lt h
  cases u with
  | none =>
    have hplain : lexTail flags base num n token s = finish token (plain flags base num n) s := by
      cases s with
      | nil => rfl
      | cons c s =>
        have hjunk : isJunk c = false := by simpa using hs.1
        have hletter : (isF c || isD c || isI c || isU c || isL c) = false := by
          rw [← Bool.not_eq_true]
          intro h
          rw [(isJunk_facts c).1 (by simp [h])] at hjunk
          cases hjunk
        simp only [Bool.or_eq_false_iff] at hletter
        have hpoint : ¬(c = 0x2e ∧ s.head? ≠ some 0x2e) := fun h => h.2 (hs.2 (congrArg some h.1))
        rw [lexTail, if_neg hpoint]
        simp [hletter]
    rw [Suffix.text, nil_append, hplain, finish_of_ends hs (by simpa [Suffix.text] using hlen)]
    simp [Suffix.result]
  | float c =>
    obtain ⟨c, hc⟩ := c
    rw [Suffix.text, length_singleton] at hlen
    rw [Suffix.text, singleton_append, lexTail, if_neg fun h => (letter_facts c).1 hc h.1, if_pos hc,
      hput c (by omega), bind_some, finish_of_ends hs (by simpa using hlen)]
    rfl
  | double c =>
    obtain ⟨c, hc⟩ := c
    rw [Suffix.text, length_singleton] at hlen
    obtain ⟨hpoint, hf⟩ := (letter_facts c).2.1 hc
    rw [Suffix.text, singleton_append, lexTail, if_neg fun h => hpoint h.1, hf, if_neg (by simp), if_pos hc,
      hput c (by omega), bind_some, finish_of_ends hs (by simpa using hlen)]
    rfl
  | sign c =>
    have hc : (isI c.1 || isU c.1) = true := c.2
    rw [Suffix.text, length_singleton] at hlen
    rw [Suffix.text, singleton_append, lexTail_letter flags base num n (by simp [hc]), hput _ (by omega),
      bind_some, lexSuffix_sign hc hs, bind_some, finish_of_ends hs (by simpa using hlen)]
    rfl
  | signLong c l =>
    have hc : (isI c.1 || isU c.1) = true := c.2
    rw [Suffix.text, length_cons] at hlen
    rw [Suffix.text, cons_append, lexTail_letter flags base num n (by simp [hc]), hput _ (by omega), bind_some,
      lexSuffix_signLong hc l hs (by simp; omega), bind_some, finish_of_ends hs (by simp; omega)]
    simp [Suffix.result]
  | long l =>
    have hsize : token.length + 1 + (if l.two then 1 else 0) < tokenSize := by
      cases htwo : l.two <;> simp_all [Suffix.text, Long.text, add_assoc]
    rw [Suffix.text, Long.text, cons_append, lexTail_letter flags base num n (by simp [l.isL]), hput _ (by omega),
      bind_some, lexSuffix_long l hs (by simp; omega), bind_some, finish_of_ends hs]
    · simp [Suffix.result]
    · cases htwo : l.two <;> simp_all
  | longSign l c =>
    have hc : (isI c.1 || isU c.1) = true := c.2
    have hsize : token.length + 1 + (if l.two then 1 else 0) + 1 < tokenSize := by
      cases htwo : l.two <;> simp_all [Suffix.text, Long.text, add_assoc]
    rw [Suffix.text, Long.text, cons_append, cons_append, append_assoc, singleton_append,
      lexTail_letter flags base num n (by simp [l.isL]), hput _ (by omega), bind_some,
      lexSuffix_longSign l hc (by simp; omega), bind_some, finish_of_ends hs]
    · simp [Suffix.result]
    · cases htwo : l.two <;> simp_all

end Suffixes

/-! ## A literal is read -/

section Reading

variable {token s : List QByte}

/-- The prefix in the token has the length of that in the text. -/
theorem lexBase_text (b : Base) (hdecimal : b = .decimal → s.head? ≠ some 0x30)
    (hoctal : b = .octal → s.head? ≠ some 0x78 ∧ s.head? ≠ some 0x58) (hlen : token.length + b.text.length ≤ tokenSize) :
    ∃ ws p, p.length = b.text.length ∧ lexBase token (b.text ++ s) = some (b.radix, ws, token ++ p, s) := by
  cases b with
  | decimal =>
    refine ⟨[], [], rfl, ?_⟩
    have hzero := hdecimal rfl
    rw [Base.text, nil_append, lexBase, if_neg fun h => hzero h.1, if_neg hzero, append_nil]
    rfl
  | octal =>
    obtain ⟨hlower, hupper⟩ := hoctal rfl
    have hx : ¬((0x30 :: s).head? = some (0x30 : QByte) ∧
        ((0x30 :: s).tail.head? = some 0x78 ∨ (0x30 :: s).tail.head? = some 0x58)) :=
      fun h => h.2.elim hlower hupper
    refine ⟨if s.head?.any isDigit then [.octalImmediate] else [], [0x30], rfl, ?_⟩
    rw [Base.text, singleton_append, lexBase, if_neg hx,
      if_pos (show (0x30 :: s).head? = some 0x30 from rfl), put_of_lt (Nat.lt_of_succ_le (by simpa [Base.text] using hlen))]
    rfl
  | hexadecimal upper =>
    simp only [Base.text, length_cons, length_nil] at hlen
    refine ⟨[], [0x30, 0x78], rfl, ?_⟩
    rw [Base.text, cons_append, lexBase, if_pos ⟨rfl, by cases upper <;> simp⟩, put_of_lt (by omega), bind_some,
      put_of_lt (by simp; omega), append_assoc]
    rfl

/-- The front of a suffix is none of the bytes that are neither letters of a suffix nor in front of another text. -/
theorem head_suffix {test : QByte → Bool} (u : Suffix) (hs : Ends s) (hjunk : ∀ c, test c = true → isJunk c = true)
    (hfloat : u.IsFloating → ∀ c, (isF c || isD c) = true → test c = false)
    (hletter : ∀ c, (isI c || isU c || isL c) = true → test c = false) : (u.text ++ s).head?.any test = false := by
  cases u with
  | none => exact hs.head hjunk
  | float c => exact hfloat trivial c.1 (by simp [c.2])
  | double c => exact hfloat trivial c.1 (by simp [c.2])
  | sign c => exact hletter c.1 (by rw [c.2]; rfl)
  | signLong c l => exact hletter c.1 (by rw [c.2]; rfl)
  | long l => exact hletter l.letter (by simp [l.isL])
  | longSign l c => exact hletter l.letter (by simp [l.isL])

theorem head_digits_suffix (l : Literal) (hs : Ends s) {x : QByte} (hdigit : digitValue l.base.radix x = none)
    (hjunk : isJunk x = true) (hx : (isF x || isD x || isI x || isU x || isL x) = false) :
    (l.digits ++ (l.suffix.text ++ s)).head? ≠ some x := by
  cases hd : l.digits with
  | nil =>
    have hne : ∀ c, (isF c || isD c || isI c || isU c || isL c) = true → decide (c = x) = false := by
      intro c hc
      refine decide_eq_false fun h => ?_
      rw [h, hx] at hc
      cases hc
    have hhead := @head_suffix s (fun c => c = x) l.suffix hs (fun c hc => by rw [of_decide_eq_true hc]; exact hjunk)
      (fun _ c hc => hne c (by simp [hc])) (fun c hc => hne c (by
        rw [Bool.or_eq_true, Bool.or_eq_true] at hc
        rcases hc with (hc | hc) | hc <;> simp [hc]))
    intro h
    rw [nil_append] at h
    simp [h] at hhead
  | cons c ds =>
    have hc := l.digit c (by simp [hd])
    intro h
    rw [cons_append, head?_cons, Option.some.injEq] at h
    rw [h, hdigit] at hc
    cases hc

theorem radix_cases (b : Base) : b.radix = 8 ∨ b.radix = 10 ∨ b.radix = 16 := by
  cases b <;> simp [Base.radix]

/-- No digit is behind the digits of a literal. -/
theorem head_suffix_digit (l : Literal) (hs : Ends s) :
    (l.suffix.text ++ s).head?.any (fun c => (digit l.base.radix c).isSome) = false := by
  have hfacts : ∀ c : QByte, ((isI c || isU c || isL c) = true → digit 8 c = none ∧ digit 10 c = none ∧ digit 16 c = none) ∧
      ((isF c || isD c) = true → digit 8 c = none ∧ digit 10 c = none) := by
    decide +kernel
  refine head_suffix l.suffix hs (fun c hc => (isJunk_facts c).2 ?_) (fun hfloat c hc => ?_) (fun c hc => ?_)
  · cases hbase : l.base <;> rw [hbase] at hc <;> simp only [Base.radix] at hc <;> simp [hc]
  · cases hbase : l.base with
    | decimal => simp [Base.radix, (hfacts c).2 hc]
    | octal => simp [Base.radix, (hfacts c).2 hc]
    | hexadecimal upper => exact absurd hfloat (l.suffix_of_hexadecimal upper hbase)
  · cases l.base <;> simp [Base.radix, (hfacts c).1 hc]

theorem head_base (l : Literal) : (l.base.text ++ (l.digits ++ (l.suffix.text ++ s))).head? ≠ some 0x2d := by
  have hdigit : digitValue 10 0x2d = none := by decide
  cases hbase : l.base with
  | decimal =>
    have hne := l.ne_nil (by rw [hbase]; nofun)
    obtain ⟨c, ds, hd⟩ := exists_cons_of_ne_nil hne
    intro h
    rw [hd, Base.text, nil_append, cons_append, head?_cons, Option.some.injEq] at h
    have hc := l.digit c (by simp [hd])
    rw [hbase, h, Base.radix, hdigit] at hc
    cases hc
  | octal => simp [Base.text]
  | hexadecimal upper => simp [Base.text]

/-- `num` is the number without its sign, modulo 2^64. -/
def Literal.num (l : Literal) : BitVec 64 := BitVec.ofNat 64 l.magnitude

/-- `num*sign`. -/
def Literal.signed (l : Literal) : BitVec 64 := if l.minus then -l.num else l.num

/-- **A literal that fits in the token is read up to its end.** -/
theorem lexNumber_literal (flags : Flags) (l : Literal) (hs : Ends s) (hlen : l.text.length < tokenSize) :
    ∃ token ws, lexNumber flags (l.text ++ s) =
      some ⟨token, (l.suffix.result flags l.base.radix l.num l.signed).1,
        (l.suffix.result flags l.base.radix l.num l.signed).2.1, s,
        ws ++ (l.suffix.result flags l.base.radix l.num l.signed).2.2⟩ := by
  have hsizes : (if l.minus then 1 else 0) + l.base.text.length + l.digits.length + l.suffix.text.length < tokenSize := by
    rw [Literal.text] at hlen
    cases hminus : l.minus <;> simp [hminus] at hlen ⊢ <;> omega
  have hsign : accept (fun c => c = 0x2d) [] (l.text ++ s) =
      some (if l.minus then some 0x2d else none, if l.minus then [0x2d] else [],
        l.base.text ++ (l.digits ++ (l.suffix.text ++ s))) := by
    rw [Literal.text]
    simp only [append_assoc]
    cases l.minus with
    | true => exact accept_cons (by simp) (by simp [tokenSize])
    | false =>
      have hhead := head_base (s := s) l
      refine accept_of_head ?_
      rw [if_neg (by simp), nil_append]
      cases h : (l.base.text ++ (l.digits ++ (l.suffix.text ++ s))).head? with
      | none => rfl
      | some c => simpa [h] using hhead
  have hminus : (if l.minus then [0x2d] else ([] : List QByte)).length = if l.minus then 1 else 0 := by
    cases l.minus <;> rfl
  obtain ⟨ws, p, hp, hbase⟩ := @lexBase_text (if l.minus then [0x2d] else []) (l.digits ++ (l.suffix.text ++ s)) l.base
    (fun h => by
      obtain ⟨c, ds, hd⟩ := exists_cons_of_ne_nil (l.ne_nil (by rw [h]; nofun))
      have hfirst := l.first h
      rw [hd] at hfirst ⊢
      exact hfirst)
    (fun h => ⟨head_digits_suffix l hs (by rw [h]; decide) (by decide) (by decide),
      head_digits_suffix l hs (by rw [h]; decide) (by decide) (by decide)⟩)
    (by rw [hminus]; omega)
  have hdigits := @lexDigits_append ((if l.minus then [0x2d] else []) ++ p) _ _ _ (radix_cases l.base) l.digit
    (head_suffix_digit l hs) (by rw [length_append, hminus, hp]; omega) 0
  refine ⟨(if l.minus then [0x2d] else []) ++ p ++ l.digits ++ l.suffix.text ++ [0], ws, ?_⟩
  have hnum : BitVec.ofNat 64 (horner l.base.radix 0 l.digits) = l.num := by rw [horner_eq]; rfl
  have hsigned : (if (if l.minus then some (0x2d : QByte) else none).isSome then -l.num else l.num) = l.signed := by
    rw [Literal.signed]
    cases l.minus <;> rfl
  rw [lexNumber, hsign, bind_some, hbase, bind_some]
  simp only
  rw [show (0 : BitVec 64) = BitVec.ofNat 64 0 from rfl, hdigits, bind_some, hnum, hsigned,
    lexTail_suffix flags _ _ _ _ hs (by simp only [length_append, hminus, hp]; omega)]
  rfl

end Reading

/-! ## What a literal becomes -/

section Values

variable {v : ℤ}

theorem Literal.signed_eq (l : Literal) : l.signed = BitVec.ofInt 64 l.value := by
  rw [Literal.signed, Literal.value, Literal.num]
  cases l.minus with
  | true => simp [BitVec.ofInt_neg]
  | false => simp

theorem toInt_ofInt_value (hv : |v| < 2 ^ 63) : (BitVec.ofInt 64 v).toInt = v := by
  have hbounds := abs_lt.mp hv
  refine BitVec.toInt_ofInt_eq_self (by omega) ?_ ?_ <;> simp only [Nat.reduceSub] <;> omega

theorem setWidth_ofInt (v : ℤ) : (BitVec.ofInt 64 v).setWidth 32 = BitVec.ofInt 32 v := by
  apply BitVec.eq_of_toNat_eq
  rw [BitVec.toNat_setWidth, BitVec.toNat_ofInt, BitVec.toNat_ofInt]
  omega

/-- Without a warning 32 bits hold a number, unless the highest of them is lost. -/
theorem represents_of_intOverflow (hv : |v| < 2 ^ 63) (h : intOverflow (BitVec.ofInt 64 v) = [])
    (hlow : -2 ^ 31 ≤ v ∧ v < 2 ^ 32 ∨ (BitVec.ofInt 32 v).msb = false) :
    Eval.Represents v (.int ((BitVec.ofInt 64 v).setWidth 32)) := by
  refine ⟨setWidth_ofInt v, ?_⟩
  rcases hlow with hlow | hmsb
  · exact hlow
  rw [intOverflow, setWidth_ofInt] at h
  -- a mask that is not lost has the highest bit
  have hmask : (BitVec.ofInt 32 v).signExtend 64 &&& 0xffffffff80000000 ≠ 0xffffffff80000000 := by
    intro heq
    have hbit := congrArg BitVec.msb heq
    rw [BitVec.msb_and, BitVec.msb_signExtend, hmsb] at hbit
    simp at hbit
    exact absurd hbit (by decide)
  have heq : (BitVec.ofInt 32 v).signExtend 64 = BitVec.ofInt 64 v := by
    by_contra hne
    rw [if_pos ⟨hne, hmask⟩] at h
    cases h
  have hint := congrArg BitVec.toInt heq
  rw [BitVec.toInt_signExtend_of_le (by omega), toInt_ofInt_value hv] at hint
  have hlt := (BitVec.ofInt 32 v).toInt_lt
  have hle := (BitVec.ofInt 32 v).le_toInt
  simp only [Nat.reduceSub] at hlt hle
  omega

/-- Without a warning a rounded number is exact. -/
theorem exact_of_floatOverflow (hv : |v| < 2 ^ 63) {p : ℕ} {emin : ℤ}
    (h : floatOverflow (.finite (v < 0) (roundTo p emin |(v : ℚ)|)) (BitVec.ofInt 64 v) = []) :
    signed (v < 0) (roundTo p emin |(v : ℚ)|) = v := by
  have hsigned : signed (v < 0) (roundTo p emin |(v : ℚ)|) = roundTo p emin v := by
    rcases lt_or_ge v 0 with hneg | hneg
    · have hneg' : (v : ℚ) < 0 := by exact_mod_cast hneg
      rw [signed, if_pos (decide_eq_true hneg), abs_of_neg hneg', roundTo_neg, neg_neg]
    · have hneg' : (0 : ℚ) ≤ v := by exact_mod_cast hneg
      rw [signed, if_neg (by simpa using hneg), abs_of_nonneg hneg']
  obtain ⟨k, hk⟩ := @exists_roundTo_intCast p emin v
  have htrunc : trunc (k : ℚ) = k := le_antisymm (trunc_le le_rfl) (le_trunc le_rfl)
  have heq : toLonglong (.finite (v < 0) (roundTo p emin |(v : ℚ)|)) = BitVec.ofInt 64 v := by
    by_contra hne
    rw [floatOverflow, if_pos hne] at h
    cases h
  have hint := congrArg BitVec.toInt heq
  have hbounds := abs_lt.mp hv
  rw [toInt_ofInt_value hv, toLonglong, hsigned, hk, htrunc] at hint
  rw [hsigned, hk]
  split_ifs at hint with hrange
  · rw [BitVec.toInt_ofInt_eq_self (by omega) (by simpa using hrange.1) (by simpa using hrange.2)] at hint
    rw [hint]
  · rw [BitVec.toInt_intMin] at hint
    simp at hint
    omega

end Values

/-- The `float` nearest to an integer. -/
def nearest (v : ℤ) : CFloat := .finite (v < 0) (roundTo 24 (-149) |(v : ℚ)|)

/-- 32 bits hold the literal: by its type, or with `flag_qccx` as the bits of a `float`. -/
def Literal.InWord (flags : Flags) (l : Literal) : Prop :=
  l.type flags = .integer ∨ l.type flags = .uint ∨
    l.suffix = .none ∧ flags.assumeInteger = false ∧ flags.qccx = true ∧ l.base.radix = 16

section Values

variable {v : ℤ}

theorem toSingle_eq (hv : |v| < 2 ^ 63) : toSingle (BitVec.ofInt 64 v) = nearest v := by
  rw [toSingle, toInt_ofInt_value hv, nearest]

theorem toDouble_eq (hv : |v| < 2 ^ 63) :
    toDouble (BitVec.ofInt 64 v) = .finite (v < 0) (roundTo 53 (-1074) |(v : ℚ)|) := by
  rw [toDouble, toInt_ofInt_value hv]

/-- What an integer type makes of a literal. -/
theorem suffixed_spec (flags : Flags) (longs : ℕ) (u : Bool)
    (hword : (suffixed flags longs u (BitVec.ofInt 64 v)).1 = .integer ∨
      (suffixed flags longs u (BitVec.ofInt 64 v)).1 = .uint →
      |v| < 2 ^ 63 ∧ (-2 ^ 31 ≤ v ∧ v < 2 ^ 32 ∨ (BitVec.ofInt 32 v).msb = false))
    (hsilent : (suffixed flags longs u (BitVec.ofInt 64 v)).2.2 = []) :
    Eval.Represents v (suffixed flags longs u (BitVec.ofInt 64 v)).2.1 := by
  by_cases hlong : longs ≥ (if flags.ilp32 then 2 else 1)
  · rw [suffixed, if_pos hlong]
    exact rfl
  · rw [suffixed, if_neg hlong] at hword hsilent ⊢
    obtain ⟨hv, hlow⟩ := hword (by cases u <;> simp)
    exact represents_of_intOverflow hv hsilent hlow

end Values

theorem Literal.abs_value (l : Literal) : |l.value| = l.magnitude := by
  rw [Literal.value]
  cases l.minus <;> simp

theorem Literal.plainType_eq (flags : Flags) (l : Literal) (hnone : l.suffix = .none) (hv : |l.value| < 2 ^ 64) :
    plainType flags l.num = l.type flags := by
  have hm : l.magnitude < 2 ^ 64 := by
    rw [l.abs_value] at hv
    exact_mod_cast hv
  have hnat : l.num.toNat = l.magnitude := by rw [Literal.num, BitVec.toNat_ofNat, Nat.mod_eq_of_lt hm]
  rw [plainType, Literal.type, hnone, hnat]
  cases flags.assumeInteger with
  | false => rfl
  | true =>
    simp only [if_true]
    by_cases hlarge : l.magnitude ≥ 2 ^ 63
    · rw [if_pos hlarge, if_pos (by omega)]
    · have hint : l.num.toInt = l.magnitude := by
        rw [BitVec.toInt_eq_toNat_of_lt (by omega), hnat]
      rw [hint]
      split_ifs <;> first | rfl | omega

theorem plainType_ne_double (flags : Flags) (num : BitVec 64) : plainType flags num ≠ .double := by
  rw [plainType]
  split_ifs <;> nofun

/-- The type of the immediate is that of the literal. -/
theorem Literal.result_type (flags : Flags) (l : Literal) (hv : |l.value| < 2 ^ 64) :
    (l.suffix.result flags l.base.radix l.num l.signed).1 = l.type flags := by
  have hsuffixed : ∀ longs u, (suffixed flags longs u l.signed).1 =
      if longs ≥ (if flags.ilp32 then 2 else 1) then (if u then .uint64 else .int64) else if u then .uint else .integer := by
    intro longs u
    rw [suffixed]
    split_ifs <;> rfl
  cases hsuffix : l.suffix with
  | none =>
    rw [Suffix.result, ← l.plainType_eq flags hsuffix hv, plain]
    by_cases hqccx : (!flags.assumeInteger && (flags.qccx && l.base.radix = 16)) = true
    · rw [if_pos hqccx, plainType, if_neg (by simp_all)]
    · rw [if_neg hqccx]
      have hne := plainType_ne_double flags l.num
      cases hty : plainType flags l.num <;> first | rfl | exact absurd hty hne
  | float c => rw [Suffix.result, Literal.type, hsuffix]
  | double c => rw [Suffix.result, Literal.type, hsuffix]
  | _ =>
    rw [Suffix.result, Literal.type, hsuffix]
    exact hsuffixed _ _

/-- **A literal becomes an immediate of its type that represents it, or there is a warning, or it is a decimal or octal
number without a suffix that becomes the nearest `float`.** -/
theorem lexNumber_represents (flags : Flags) (l : Literal) (s : List QByte) (hs : Ends s) (hlen : l.text.length < tokenSize)
    (hlarge : |l.value| < 2 ^ 64) (hsmall : l.type flags = .int64 ∨ l.type flags = .uint64 ∨ |l.value| < 2 ^ 63)
    (hlow : l.InWord flags → -2 ^ 31 ≤ l.value ∧ l.value < 2 ^ 32 ∨ (BitVec.ofInt 32 l.value).msb = false) :
    ∃ r, lexNumber flags (l.text ++ s) = some r ∧ r.file = s ∧ r.type = l.type flags ∧
      (r.warnings ≠ [] ∨ r.immediate.Represents l.value ∨
        l.suffix = .none ∧ l.base.radix ≠ 16 ∧ l.type flags = .float ∧ r.immediate = .float (nearest l.value)) := by
  obtain ⟨token, ws, hrun⟩ := lexNumber_literal flags l hs hlen
  have htype := l.result_type flags hlarge
  refine ⟨_, hrun, rfl, htype, ?_⟩
  rw [or_iff_not_imp_left, not_not]
  intro hsilent
  have hnone := (List.append_eq_nil_iff.mp hsilent).2
  simp only
  rw [l.signed_eq] at htype hnone ⊢
  have hv (h : l.type flags ≠ .int64 ∧ l.type flags ≠ .uint64) : |l.value| < 2 ^ 63 :=
    (hsmall.resolve_left h.1).resolve_left h.2
  have hword : (l.type flags = .integer ∨ l.type flags = .uint) →
      |l.value| < 2 ^ 63 ∧ (-2 ^ 31 ≤ l.value ∧ l.value < 2 ^ 32 ∨ (BitVec.ofInt 32 l.value).msb = false) := by
    rintro (h | h)
    · exact ⟨hv (by simp [h]), hlow (.inl h)⟩
    · exact ⟨hv (by simp [h]), hlow (.inr (.inl h))⟩
  have hsuffixed : ∀ longs u, l.suffix.result flags l.base.radix l.num (BitVec.ofInt 64 l.value) =
      suffixed flags longs u (BitVec.ofInt 64 l.value) →
      Eval.Represents l.value (l.suffix.result flags l.base.radix l.num (BitVec.ofInt 64 l.value)).2.1 := by
    intro longs u heq
    rw [heq] at htype hnone ⊢
    exact suffixed_spec flags longs u (fun h => hword (by rwa [htype] at h)) hnone
  cases hsuffix : l.suffix with
  | none =>
    rw [hsuffix, Suffix.result, plain] at hnone htype
    rw [Suffix.result, plain]
    by_cases hqccx : (!flags.assumeInteger && (flags.qccx && l.base.radix = 16)) = true
    · rw [if_pos hqccx] at hnone htype ⊢
      refine .inl (represents_of_intOverflow (hv (by simp [← htype])) hnone (hlow (.inr (.inr ⟨hsuffix, ?_⟩))))
      simpa using hqccx
    · rw [if_neg hqccx, l.plainType_eq flags hsuffix hlarge] at hnone htype ⊢
      cases hty : l.type flags with
      | int64 => exact .inl rfl
      | uint64 => exact .inl rfl
      | integer =>
        rw [hty] at hnone
        exact .inl (represents_of_intOverflow (hword (.inl hty)).1 hnone (hword (.inl hty)).2)
      | uint =>
        rw [hty] at hnone
        exact .inl (represents_of_intOverflow (hword (.inr hty)).1 hnone (hword (.inr hty)).2)
      | float =>
        rw [hty] at hnone
        simp only at hnone ⊢
        have hv := hv (by simp [hty])
        rw [toSingle_eq hv] at hnone ⊢
        by_cases hbase : l.base.radix = 16
        · rw [if_pos hbase] at hnone
          exact .inl ⟨_, _, rfl, exact_of_floatOverflow hv hnone⟩
        · exact .inr ⟨trivial, hbase, trivial, rfl⟩
      | double => rw [hty] at htype; simp at htype
  | float c =>
    have hv := hv (by simp [Literal.type, hsuffix])
    rw [hsuffix, Suffix.result, toSingle_eq hv] at hnone
    rw [Suffix.result, toSingle_eq hv]
    exact .inl ⟨_, _, rfl, exact_of_floatOverflow hv hnone⟩
  | double c =>
    have hv := hv (by simp [Literal.type, hsuffix])
    rw [hsuffix, Suffix.result, toDouble_eq hv] at hnone
    rw [Suffix.result, toDouble_eq hv]
    exact .inl ⟨_, _, rfl, exact_of_floatOverflow hv hnone⟩
  | sign c => exact .inl (by rw [← hsuffix]; exact hsuffixed 0 (isU c.1) (by rw [hsuffix]; rfl))
  | signLong c long => exact .inl (by rw [← hsuffix]; exact hsuffixed long.count (isU c.1) (by rw [hsuffix]; rfl))
  | long long => exact .inl (by rw [← hsuffix]; exact hsuffixed long.count false (by rw [hsuffix]; rfl))
  | longSign long c => exact .inl (by rw [← hsuffix]; exact hsuffixed long.count (isU c.1) (by rw [hsuffix]; rfl))

/-- No flag is set. -/
def noFlags : Flags := ⟨false, false, false, false⟩

/-- `4000000000u`. -/
def fourBillion : Literal where
  minus := false
  base := .decimal
  digits := [0x34, 0x30, 0x30, 0x30, 0x30, 0x30, 0x30, 0x30, 0x30, 0x30]
  suffix := .sign ⟨0x75, by decide⟩
  digit := by decide
  ne_nil := by simp
  first := by simp
  suffix_of_hexadecimal := by simp

theorem lexNumber_represents_fourBillion :
    ∃ r, lexNumber noFlags (fourBillion.text ++ [0x3b]) = some r ∧ r.file = [0x3b] ∧ r.type = fourBillion.type noFlags ∧
      (r.warnings ≠ [] ∨ r.immediate.Represents fourBillion.value ∨
        fourBillion.suffix = .none ∧ fourBillion.base.radix ≠ 16 ∧ fourBillion.type noFlags = .float ∧
          r.immediate = .float (nearest fourBillion.value)) := by
  have hvalue : fourBillion.value = 4000000000 := by decide +kernel
  refine lexNumber_represents noFlags fourBillion [0x3b] ⟨by decide, nofun⟩ (by decide) ?_ (.inr (.inr ?_)) fun _ => .inl ?_
  · rw [hvalue]
    norm_num
  · rw [hvalue]
    norm_num
  · rw [hvalue]
    norm_num

/-- `16777217`. -/
def pastFloat : Literal where
  minus := false
  base := .decimal
  digits := [0x31, 0x36, 0x37, 0x37, 0x37, 0x32, 0x31, 0x37]
  suffix := .none
  digit := by decide
  ne_nil := by simp
  first := by simp
  suffix_of_hexadecimal := by simp

/-- `16777217` becomes the `float` 16777216, and there is no warning. -/
theorem lexNumber_rounds :
    pastFloat.value = 16777217 ∧
      lexNumber noFlags pastFloat.text = some ⟨pastFloat.text ++ [0], .float, .float (.finite false 16777216), [], []⟩ ∧
      ¬ Eval.Represents 16777217 (.float (.finite false 16777216)) := by
  refine ⟨by decide +kernel, by decide +kernel, ?_⟩
  rintro ⟨s, m, heq, hvalue⟩
  cases heq
  rw [signed, if_neg (by simp)] at hvalue
  norm_num at hvalue

end LexNumber

end FteQuake
