import FteQuake.Lib.BinaryFloat
import Mathlib.Data.List.TakeWhile

/-!
# The numbers that `strtod` reads

A double is a sign and a rational magnitude, an infinity or no number. `CFloat.strtod` reads the
longest numeral at the front of a text: decimal or hexadecimal digits with a point and an exponent,
`inf` or `nan`; a text without one is zero. What it reads is rounded to the nearest double.
-/

/-- A floating point number of a C program. -/
inductive CFloat
  | finite (neg : Bool) (m : ℚ)
  | infinity (neg : Bool)
  | nan
  deriving DecidableEq

namespace CFloat

/-- The double nearest to a magnitude. -/
def double (neg : Bool) (m : ℚ) : CFloat :=
  if 2 ^ 1024 ≤ BinaryFloat.roundTo 53 (-1074) m then .infinity neg
  else .finite neg (BinaryFloat.roundTo 53 (-1074) m)

/-- The comparison with 0. -/
def IsZero (x : CFloat) : Prop := x = .finite false 0 ∨ x = .finite true 0

instance (x : CFloat) : Decidable x.IsZero := inferInstanceAs (Decidable (_ ∨ _))

/-! ## Numerals -/

/-- A letter of ASCII in lower case. -/
def lower (c : BitVec 8) : BitVec 8 := if 0x41 ≤ c ∧ c ≤ 0x5a then c + 0x20 else c

/-- `isspace`. -/
def space (c : BitVec 8) : Bool := c = 0x20 ∨ 0x09 ≤ c ∧ c ≤ 0x0d

/-- The value of a digit. -/
def digitValue (base : ℕ) (c : BitVec 8) : Option ℕ :=
  let c := lower c
  let d := if 0x30 ≤ c ∧ c ≤ 0x39 then c.toNat - 0x30
    else if 0x61 ≤ c ∧ c ≤ 0x7a then c.toNat - 0x61 + 10 else base
  if d < base then some d else none

/-- The digits at the front, behind `n` digits of the given value: their value and number, and what
is behind them. -/
def scanDigits (base value n : ℕ) : List (BitVec 8) → ℕ × ℕ × List (BitVec 8)
  | [] => (value, n, [])
  | c :: s =>
    match digitValue base c with
    | some d => scanDigits base (value * base + d) (n + 1) s
    | none => (value, n, c :: s)

/-- A sign, and what is behind it. -/
def scanSign (s : List (BitVec 8)) : Bool × List (BitVec 8) :=
  if s.head? = some 0x2d then (true, s.tail)
  else if s.head? = some 0x2b then (false, s.tail)
  else (false, s)

/-- Digits with a point among them: what they stand for, if there are any. -/
def scanMantissa (base : ℕ) (s : List (BitVec 8)) : Option (ℚ × List (BitVec 8)) :=
  let (value, n, s) := scanDigits base 0 0 s
  let (value, k, s) := if s.head? = some 0x2e then scanDigits base value 0 s.tail else (value, 0, s)
  if n + k = 0 then none else some (value / base ^ k, s)

/-- An exponent behind a letter, or 0. -/
def scanExponent (letter : BitVec 8) (s : List (BitVec 8)) : ℤ :=
  match s with
  | [] => 0
  | c :: s =>
    let (neg, s) := scanSign s
    let (value, n, _) := scanDigits 10 0 0 s
    if lower c = letter ∧ n ≠ 0 then (if neg then -value else value) else 0

/-- A number without a sign. -/
def scanMagnitude (s : List (BitVec 8)) : ℚ :=
  let hex := if (s.take 2).map lower = [0x30, 0x78] then scanMantissa 16 (s.drop 2) else none
  match hex, scanMantissa 10 s with
  | some (m, s), _ => m * 2 ^ scanExponent 0x70 s
  | none, some (m, s) => m * 10 ^ scanExponent 0x65 s
  | none, none => 0

/-- `strtod`, without the place where it stops. -/
def strtod (s : List (BitVec 8)) : CFloat :=
  let (neg, s) := scanSign (s.dropWhile space)
  let word := (s.take 3).map lower
  if word = [0x69, 0x6e, 0x66] then .infinity neg
  else if word = [0x6e, 0x61, 0x6e] then .nan
  else double neg (scanMagnitude s)

example : (strtod [0x20, 0x2d, 0x30, 0x2e, 0x30]).IsZero := by decide +kernel

end CFloat
