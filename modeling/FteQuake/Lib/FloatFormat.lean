import FteQuake.Lib.Strtod
import Mathlib.Data.List.DropRight

/-!
# Arithmetic and printing of doubles

The operators of a C program on doubles, rounded to the nearest one, the conversion to a `float`, and what
`printf` writes for `%g`: six significant digits without the zeros at the end, with an exponent where it is less
than -4, or 6 and more. The sign of a number that is none is left out.
-/

namespace CFloat

open BinaryFloat

/-! ## Arithmetic -/

/-- The rational number of a sign and a magnitude. -/
def signed (neg : Bool) (m : ℚ) : ℚ := if neg then -m else m

def neg : CFloat → CFloat
  | finite s m => finite (!s) m
  | infinity s => infinity (!s)
  | nan => nan

def add : CFloat → CFloat → CFloat
  | finite s m, finite t n =>
    let q := signed s m + signed t n
    if q = 0 then finite (s && t) 0 else double (q < 0) |q|
  | infinity s, infinity t => if s = t then infinity s else nan
  | infinity s, finite _ _ => infinity s
  | finite _ _, infinity t => infinity t
  | _, _ => nan

def sub (x y : CFloat) : CFloat := add x (neg y)

def mul : CFloat → CFloat → CFloat
  | finite s m, finite t n => double (s != t) (m * n)
  | infinity s, infinity t => infinity (s != t)
  | infinity s, finite t n => if n = 0 then nan else infinity (s != t)
  | finite s m, infinity t => if m = 0 then nan else infinity (s != t)
  | _, _ => nan

def div : CFloat → CFloat → CFloat
  | finite s m, finite t n =>
    if n ≠ 0 then double (s != t) (m / n) else if m = 0 then nan else infinity (s != t)
  | infinity s, finite t _ => infinity (s != t)
  | finite s _, infinity t => finite (s != t) 0
  | _, _ => nan

/-- `x < y`. -/
def less : CFloat → CFloat → Bool
  | finite s m, finite t n => signed s m < signed t n
  | infinity s, infinity t => s && !t
  | infinity s, finite _ _ => s
  | finite _ _, infinity t => !t
  | _, _ => false

/-- `x == y`. -/
def equal : CFloat → CFloat → Bool
  | finite s m, finite t n => signed s m = signed t n
  | infinity s, infinity t => s = t
  | _, _ => false

/-- An integer as a double. -/
def ofInt (n : ℤ) : CFloat := double (n < 0) |(n : ℚ)|

/-- The conversion to a `float`. -/
def single : CFloat → CFloat
  | finite s m => if 2 ^ 128 ≤ roundTo 24 (-149) m then infinity s else finite s (roundTo 24 (-149) m)
  | x => x

/-! ## Printing -/

/-- The digits of a number. -/
def decimal (n : ℕ) : List (BitVec 8) := (Nat.toDigits 10 n).map fun c => BitVec.ofNat 8 c.toNat

/-- A number with what is behind its point, without the zeros at the end. -/
def pointed (whole fraction : List (BitVec 8)) : List (BitVec 8) :=
  let fraction := fraction.rdropWhile (· = 0x30)
  if fraction = [] then whole else whole ++ 0x2e :: fraction

/-- The exponent of the first digit, and six digits of a magnitude. -/
def sixDigits (m : ℚ) : ℤ × ℕ :=
  let x := Int.log 10 m
  let n := (roundEven (m / 10 ^ (x - 5))).toNat
  if n = 10 ^ 6 then (x + 1, 10 ^ 5) else (x, n)

/-- `%g` of a magnitude that is not 0. -/
def formatMagnitude (m : ℚ) : List (BitVec 8) :=
  let x := (sixDigits m).1
  let digits := decimal (sixDigits m).2
  if x < -4 ∨ 6 ≤ x then
    let exponent := decimal x.natAbs
    pointed (digits.take 1) (digits.drop 1) ++ 0x65 :: (if x < 0 then 0x2d else 0x2b) ::
      (List.replicate (2 - exponent.length) 0x30 ++ exponent)
  else if x < 0 then pointed [0x30] (List.replicate (x.natAbs - 1) 0x30 ++ digits)
  else pointed (digits.take (x.toNat + 1)) (digits.drop (x.toNat + 1))

/-- `printf` with `%g`. -/
def formatG : CFloat → List (BitVec 8)
  | finite s m => (if s then [0x2d] else []) ++ (if m = 0 then [0x30] else formatMagnitude m)
  | infinity s => (if s then [0x2d] else []) ++ [0x69, 0x6e, 0x66]
  | nan => [0x6e, 0x61, 0x6e]

/-- -0.00125, and a million, of which there are more than six digits. -/
example : formatG (finite true (1 / 800)) = [0x2d, 0x30, 0x2e, 0x30, 0x30, 0x31, 0x32, 0x35] ∧
    formatG (ofInt 1000000) = [0x31, 0x65, 0x2b, 0x30, 0x36] := by decide +kernel

end CFloat
