import Mathlib.Algebra.Order.Field.Power
import Mathlib.Algebra.Order.Floor.Ring
import Mathlib.Data.BitVec
import Mathlib.Data.Int.Log
import Mathlib.Data.Rat.Floor
import Mathlib.Tactic.Linarith
import Mathlib.Tactic.Positivity
import Mathlib.Tactic.Ring

/-!
# Binary floating point

Rounding of rational numbers to a binary format, to nearest with ties to even, and the 32-bit
interchange format of IEEE 754. A format is given by its precision `p` and the exponent `emin` of
its least positive number: 24 and -149 for single, 53 and -1074 for double precision.

The two facts about rounding that programs with fixed-point numbers rely on:

* it keeps the bounds that are integers of the format (`le_roundTo`, `roundTo_le`), and a half
  (`roundTo_le_half`);
* it is off by half a unit in the last place at most (`abs_roundTo_sub_le`), and so is the number
  that the rounded bit pattern stands for (`abs_val_ofRat_sub_le`).
-/

namespace BinaryFloat

/-! ## Rounding to an integer -/

/-- The nearest integer, and the even one of two. -/
def roundEven (q : ℚ) : ℤ :=
  if q - ⌊q⌋ < 1 / 2 then ⌊q⌋
  else if 1 / 2 < q - ⌊q⌋ then ⌊q⌋ + 1
  else if ⌊q⌋ % 2 = 0 then ⌊q⌋ else ⌊q⌋ + 1

theorem roundEven_eq_or (q : ℚ) : roundEven q = ⌊q⌋ ∧ q - ⌊q⌋ ≤ 1 / 2 ∨
    roundEven q = ⌊q⌋ + 1 ∧ 1 / 2 ≤ q - ⌊q⌋ := by
  unfold roundEven
  split
  · exact .inl ⟨rfl, le_of_lt ‹_›⟩
  · split
    · exact .inr ⟨rfl, le_of_lt ‹_›⟩
    · split
      · exact .inl ⟨rfl, not_lt.1 ‹_›⟩
      · exact .inr ⟨rfl, not_lt.1 ‹_›⟩

variable {q : ℚ} {n : ℤ}

theorem le_roundEven (h : (n : ℚ) ≤ q) : n ≤ roundEven q := by
  have hn : n ≤ ⌊q⌋ := Int.le_floor.2 h
  rcases roundEven_eq_or q with ⟨e, -⟩ | ⟨e, -⟩ <;> omega

theorem roundEven_le (h : q ≤ n) : roundEven q ≤ n := by
  have hn : ⌊q⌋ ≤ n := Int.floor_le_iff.2 (by linarith)
  rcases roundEven_eq_or q with ⟨e, -⟩ | ⟨e, hq⟩
  · omega
  · -- a number that is rounded up is not an integer
    have : ⌊q⌋ ≠ n := by
      rintro rfl
      linarith
    omega

theorem abs_roundEven_sub_le (q : ℚ) : |(roundEven q : ℚ) - q| ≤ 1 / 2 := by
  have h0 := Int.floor_le q
  have h1 := Int.lt_floor_add_one q
  rw [abs_le]
  rcases roundEven_eq_or q with ⟨e, hq⟩ | ⟨e, hq⟩
  · rw [e]
    constructor <;> linarith
  · rw [e]
    push_cast
    constructor <;> linarith

/-- The conversion of a C program to an integer: towards zero. -/
def trunc (q : ℚ) : ℤ := if 0 ≤ q then ⌊q⌋ else ⌈q⌉

theorem le_trunc (h : (n : ℚ) ≤ q) : n ≤ trunc q := by
  unfold trunc
  split
  · exact Int.le_floor.2 h
  · exact_mod_cast h.trans (Int.le_ceil q)

theorem trunc_le (h : q ≤ n) : trunc q ≤ n := by
  unfold trunc
  split
  · exact_mod_cast (Int.floor_le q).trans h
  · exact Int.ceil_le.2 h

/-! ## Rounding to a format -/

/-- The exponent of the last place of the numbers around `q`. -/
def ulpExp (p : ℕ) (emin : ℤ) (q : ℚ) : ℤ :=
  if q = 0 then emin else max (Int.log 2 |q| + 1 - p) emin

/-- The units in the last place of `q` rounded. -/
def mantissa (p : ℕ) (emin : ℤ) (q : ℚ) : ℤ := roundEven (|q| / 2 ^ ulpExp p emin q)

/-- The number of the format nearest to `q`, if that is in its range. -/
def roundTo (p : ℕ) (emin : ℤ) (q : ℚ) : ℚ :=
  (if q < 0 then -1 else 1) * (mantissa p emin q * 2 ^ ulpExp p emin q)

section Rounding

variable {p : ℕ} {emin : ℤ} {q : ℚ}

theorem mantissa_nonneg : 0 ≤ mantissa p emin q :=
  le_roundEven (by rw [Int.cast_zero]; positivity)

theorem roundTo_neg : roundTo p emin (-q) = -roundTo p emin q := by
  have he : ulpExp p emin (-q) = ulpExp p emin q := by simp [ulpExp]
  have hm : mantissa p emin (-q) = mantissa p emin q := by simp [mantissa, he]
  unfold roundTo
  rw [he, hm]
  rcases lt_trichotomy q 0 with h | rfl | h
  · rw [if_neg (by linarith), if_pos h]
    ring
  · have h0 : mantissa p emin 0 = 0 := by simp [mantissa, roundEven]
    simp [h0]
  · rw [if_pos (by linarith), if_neg (by linarith)]
    ring

theorem roundTo_of_nonneg (h : 0 ≤ q) :
    roundTo p emin q = mantissa p emin q * 2 ^ ulpExp p emin q := by
  rw [roundTo, if_neg (not_lt.2 h), one_mul]

theorem roundTo_nonneg (h : 0 ≤ q) : 0 ≤ roundTo p emin q := by
  rw [roundTo_of_nonneg h]
  have : (0 : ℚ) ≤ mantissa p emin q := by exact_mod_cast mantissa_nonneg
  positivity

/-- Numbers with a last place past the units are large. -/
theorem le_of_ulpExp_pos (hmin : emin ≤ 0) (h : 0 < ulpExp (p + 1) emin q) :
    2 ^ p ≤ |q| / 2 ^ ulpExp (p + 1) emin q ∧ (2 : ℚ) ≤ 2 ^ ulpExp (p + 1) emin q := by
  have hq : q ≠ 0 := by
    rintro rfl
    rw [ulpExp, if_pos rfl] at h
    omega
  have he : ulpExp (p + 1) emin q = Int.log 2 |q| - p := by
    rw [ulpExp, if_neg hq] at h ⊢
    push_cast at h ⊢
    omega
  constructor
  · rw [le_div_iff₀ (by positivity), he, ← zpow_natCast, ← zpow_add₀ (by norm_num),
      add_sub_cancel]
    exact_mod_cast Int.zpow_log_le_self Nat.one_lt_two (abs_pos.2 hq)
  · calc (2 : ℚ) = 2 ^ (1 : ℤ) := by norm_num
      _ ≤ 2 ^ ulpExp (p + 1) emin q := zpow_le_zpow_right₀ (by norm_num) (by omega)

/-- Integers of the format stay below what is above them. -/
theorem le_roundTo_of_nonneg (hmin : emin ≤ 0) (hq : 0 ≤ q) {n : ℤ} (hn : n < 2 ^ (p + 1))
    (h : n ≤ q) : n ≤ roundTo (p + 1) emin q := by
  rcases lt_or_ge n 0 with h0 | h0
  · have h0' : (n : ℚ) < 0 := by exact_mod_cast h0
    exact le_trans h0'.le (roundTo_nonneg hq)
  rw [roundTo_of_nonneg hq, mantissa]
  rcases le_or_gt (ulpExp (p + 1) emin q) 0 with he | he
  · -- `n` is a whole number of units in the last place
    obtain ⟨k, hk⟩ : ∃ k : ℕ, ulpExp (p + 1) emin q = -k :=
      ⟨(-ulpExp (p + 1) emin q).toNat, by omega⟩
    rw [abs_of_nonneg hq, hk, zpow_neg, zpow_natCast, div_inv_eq_mul, ← div_eq_mul_inv, le_div_iff₀ (by positivity)]
    have hle : ((n * 2 ^ k : ℤ) : ℚ) ≤ q * 2 ^ k := by
      push_cast
      exact mul_le_mul_of_nonneg_right h (by positivity)
    exact_mod_cast le_roundEven hle
  · -- the rounded number is past all integers of the format
    obtain ⟨hm, hu⟩ := le_of_ulpExp_pos hmin he
    have hr : ((2 ^ p : ℤ) : ℚ) ≤ roundEven (|q| / 2 ^ ulpExp (p + 1) emin q) := by
      exact_mod_cast le_roundEven (by exact_mod_cast hm)
    calc (n : ℚ) ≤ 2 ^ (p + 1) := by exact_mod_cast hn.le
      _ = ((2 ^ p : ℤ) : ℚ) * 2 := by push_cast; ring
      _ ≤ _ := mul_le_mul hr hu (by norm_num) (le_trans (by positivity) hr)

theorem roundTo_le_of_nonneg (hmin : emin ≤ 0) (hq : 0 ≤ q) {n : ℤ} (hn : n < 2 ^ (p + 1))
    (h : q ≤ n) : roundTo (p + 1) emin q ≤ n := by
  rw [roundTo_of_nonneg hq, mantissa]
  rcases le_or_gt (ulpExp (p + 1) emin q) 0 with he | he
  · obtain ⟨k, hk⟩ : ∃ k : ℕ, ulpExp (p + 1) emin q = -k :=
      ⟨(-ulpExp (p + 1) emin q).toNat, by omega⟩
    rw [abs_of_nonneg hq, hk, zpow_neg, zpow_natCast, div_inv_eq_mul, ← div_eq_mul_inv, div_le_iff₀ (by positivity)]
    have hle : q * 2 ^ k ≤ ((n * 2 ^ k : ℤ) : ℚ) := by
      push_cast
      exact mul_le_mul_of_nonneg_right h (by positivity)
    exact_mod_cast roundEven_le hle
  · -- such a number is past all integers of the format
    obtain ⟨hm, hu⟩ := le_of_ulpExp_pos hmin he
    rw [le_div_iff₀ (by positivity), abs_of_nonneg hq] at hm
    have hlarge : (2 : ℚ) ^ p * 2 ≤ 2 ^ p * 2 ^ ulpExp (p + 1) emin q := by gcongr
    have hn' : (n : ℚ) < 2 ^ p * 2 := by
      rw [← pow_succ]
      exact_mod_cast hn
    linarith

/-- **Rounding keeps integer lower bounds.** -/
theorem le_roundTo (hmin : emin ≤ 0) {n : ℤ} (hn : |n| < 2 ^ (p + 1)) (h : n ≤ q) :
    n ≤ roundTo (p + 1) emin q := by
  rcases le_total 0 q with hq | hq
  · exact le_roundTo_of_nonneg hmin hq (abs_lt.1 hn).2 h
  · have e := roundTo_le_of_nonneg (p := p) hmin (neg_nonneg.2 hq) (n := -n)
      (by linarith [(abs_lt.1 hn).1]) (by push_cast; linarith)
    rw [roundTo_neg] at e
    push_cast at e
    linarith

/-- **Rounding keeps integer upper bounds.** -/
theorem roundTo_le (hmin : emin ≤ 0) {n : ℤ} (hn : |n| < 2 ^ (p + 1)) (h : q ≤ n) :
    roundTo (p + 1) emin q ≤ n := by
  have e := le_roundTo (p := p) hmin (n := -n) (q := -q) (by rwa [abs_neg]) (by push_cast; linarith)
  rw [roundTo_neg] at e
  push_cast at e
  linarith

/-- **Rounding is off by half a unit in the last place at most.** -/
theorem abs_roundTo_sub_le : |roundTo p emin q - q| ≤ 2 ^ ulpExp p emin q / 2 := by
  have hu : (0 : ℚ) < 2 ^ ulpExp p emin q := by positivity
  have hr := abs_roundEven_sub_le (|q| / 2 ^ ulpExp p emin q)
  have e : roundTo p emin q - q = (if q < 0 then -1 else 1) *
      ((roundEven (|q| / 2 ^ ulpExp p emin q) - |q| / 2 ^ ulpExp p emin q) * 2 ^ ulpExp p emin q) := by
    rw [sub_mul, div_mul_cancel₀ _ hu.ne']
    unfold roundTo mantissa
    split
    · rw [abs_of_neg ‹_›]
      ring
    · rw [abs_of_nonneg (not_lt.1 ‹_›)]
      ring
  have hs : |(if q < 0 then -1 else 1 : ℚ)| = 1 := by split <;> simp
  rw [e, abs_mul, hs, one_mul, abs_mul, abs_of_pos hu]
  nlinarith

/-- **Rounding does not lift a number past a half.** -/
theorem roundTo_le_half (hmin : emin ≤ -1) (h : q ≤ 1 / 2) : roundTo (p + 1) emin q ≤ 1 / 2 := by
  rcases le_or_gt q 0 with hq | hq
  · have h0 : 0 ≤ roundTo (p + 1) emin (-q) := roundTo_nonneg (neg_nonneg.2 hq)
    rw [roundTo_neg] at h0
    linarith
  have he : ulpExp (p + 1) emin q ≤ -1 := by
    have hl : Int.log 2 |q| < 0 := by
      rw [← Int.lt_zpow_iff_log_lt Nat.one_lt_two (abs_pos.2 hq.ne'), abs_of_pos hq]
      norm_num
      linarith
    rw [ulpExp, if_neg hq.ne']
    push_cast
    omega
  obtain ⟨k, hk⟩ : ∃ k : ℕ, ulpExp (p + 1) emin q = -(k + 1 : ℕ) :=
    ⟨(-1 - ulpExp (p + 1) emin q).toNat, by push_cast; omega⟩
  have hm : mantissa (p + 1) emin q ≤ 2 ^ k := by
    refine roundEven_le ?_
    rw [hk, zpow_neg, zpow_natCast, div_inv_eq_mul, abs_of_pos hq, pow_succ]
    have hpow : (0 : ℚ) < 2 ^ k := by positivity
    push_cast
    nlinarith
  have hm' : (mantissa (p + 1) emin q : ℚ) ≤ 2 ^ k := by exact_mod_cast hm
  rw [roundTo_of_nonneg hq.le, hk, zpow_neg, zpow_natCast, ← div_eq_mul_inv, div_le_iff₀ (by positivity), pow_succ]
  linarith

/-- An integer is rounded to an integer. -/
theorem exists_roundTo_intCast (n : ℤ) : ∃ k : ℤ, roundTo p emin n = k := by
  rcases le_or_gt (ulpExp p emin n) 0 with he | he
  · obtain ⟨k, hk⟩ : ∃ k : ℕ, ulpExp p emin n = -k := ⟨(-ulpExp p emin n).toNat, by omega⟩
    have hcast : |(n : ℚ)| / 2 ^ ulpExp p emin n = ((|n| * 2 ^ k : ℤ) : ℚ) := by
      rw [hk, zpow_neg, zpow_natCast, div_inv_eq_mul]
      push_cast
      rfl
    have hm : mantissa p emin n = |n| * 2 ^ k := by
      rw [mantissa, hcast]
      exact le_antisymm (roundEven_le le_rfl) (le_roundEven le_rfl)
    refine ⟨(if (n : ℚ) < 0 then -1 else 1) * |n|, ?_⟩
    rw [roundTo, hm, hk, zpow_neg, zpow_natCast]
    push_cast
    field_simp
  · obtain ⟨k, hk⟩ : ∃ k : ℕ, ulpExp p emin n = k := ⟨(ulpExp p emin n).toNat, by omega⟩
    refine ⟨(if (n : ℚ) < 0 then -1 else 1) * (mantissa p emin n * 2 ^ k), ?_⟩
    rw [roundTo, hk, zpow_natCast]
    push_cast
    rfl

end Rounding

/-! ## The 32-bit format -/

/-- The exponent field. -/
def expField (x : BitVec 32) : ℕ := x.toNat / 2 ^ 23 % 2 ^ 8

/-- The fraction field. -/
def fracField (x : BitVec 32) : ℕ := x.toNat % 2 ^ 23

def IsFinite (x : BitVec 32) : Prop := expField x ≠ 255

instance (x : BitVec 32) : Decidable (IsFinite x) := inferInstanceAs (Decidable (_ ≠ _))

def IsNan (x : BitVec 32) : Prop := expField x = 255 ∧ fracField x ≠ 0

instance (x : BitVec 32) : Decidable (IsNan x) := inferInstanceAs (Decidable (_ ∧ _))

/-- The number a finite bit pattern stands for. -/
def val (x : BitVec 32) : ℚ :=
  (if x.msb then -1 else 1) *
    (if expField x = 0 then (fracField x : ℚ) * 2 ^ (-149 : ℤ)
    else ((2 ^ 23 + fracField x : ℕ) : ℚ) * 2 ^ ((expField x : ℤ) - 150))

/-- `x != y`: a not-a-number differs from everything, and the two zeros do not differ. -/
def Differ (x y : BitVec 32) : Prop :=
  IsNan x ∨ IsNan y ∨ x ≠ y ∧ ¬(x.setWidth 31 = 0 ∧ y.setWidth 31 = 0)

instance (x y : BitVec 32) : Decidable (Differ x y) := inferInstanceAs (Decidable (_ ∨ _ ∨ _ ∧ _))

theorem Differ.symm {x y : BitVec 32} (h : Differ x y) : Differ y x := by
  rcases h with h | h | ⟨hne, hz⟩
  · exact .inr (.inl h)
  · exact .inl h
  · exact .inr (.inr ⟨hne.symm, fun h => hz h.symm⟩)

theorem val_eq_zero {x : BitVec 32} (h : x.setWidth 31 = 0) : val x = 0 := by
  have hx : x.toNat % 2 ^ 31 = 0 := by
    have e := congrArg BitVec.toNat h
    rwa [BitVec.toNat_setWidth] at e
  have he : expField x = 0 := by
    rw [expField]
    omega
  have hf : fracField x = 0 := by
    rw [fracField]
    omega
  rw [val, he, hf]
  simp

/-- Floats that do not differ stand for the same number. -/
theorem val_eq_of_not_differ {x y : BitVec 32} (h : ¬Differ x y) : val x = val y := by
  by_cases hxy : x = y
  · rw [hxy]
  · by_cases hz : x.setWidth 31 = 0 ∧ y.setWidth 31 = 0
    · rw [val_eq_zero hz.1, val_eq_zero hz.2]
    · exact absurd (.inr (.inr ⟨hxy, hz⟩)) h

/-- The bits but the sign of `q` rounded; past the largest number, those of infinity. -/
def magnitude (q : ℚ) : ℕ :=
  min ((ulpExp 24 (-149) q + 149).toNat * 2 ^ 23 + (mantissa 24 (-149) q).toNat) (255 * 2 ^ 23)

/-- The bit pattern of `q` rounded. -/
def ofRat (q : ℚ) : BitVec 32 := BitVec.ofNat 32 ((if q < 0 then 2 ^ 31 else 0) + magnitude q)

/-- The number with the magnitude bits `e * 2 ^ 23 + m`. -/
theorem val_of_lt {x : BitVec 32} {m : ℕ} {s : Prop} [Decidable s] (hm : m < 2 ^ 31)
    (hx : x.toNat = (if s then 2 ^ 31 else 0) + m) :
    val x = (if s then -1 else 1) *
      (if m / 2 ^ 23 = 0 then ((m % 2 ^ 23 : ℕ) : ℚ) * 2 ^ (-149 : ℤ)
      else ((2 ^ 23 + m % 2 ^ 23 : ℕ) : ℚ) * 2 ^ (((m / 2 ^ 23 : ℕ) : ℤ) - 150)) := by
  have hs : x.msb = decide s := by
    rw [BitVec.msb_eq_decide, hx]
    by_cases h : s
    · simp [h]
    · simp [h]
      omega
  have he : expField x = m / 2 ^ 23 := by
    rw [expField, hx]
    split <;> omega
  have hf : fracField x = m % 2 ^ 23 := by
    rw [fracField, hx]
    split <;> omega
  rw [val, hs, he, hf]
  simp only [decide_eq_true_iff]

/-- The mantissa has at most 24 bits, and less only at the least exponent. -/
theorem mantissa_bounds (q : ℚ) : mantissa 24 (-149) q ≤ 2 ^ 24 ∧
    (2 ^ 23 ≤ mantissa 24 (-149) q ∨ ulpExp 24 (-149) q = -149) := by
  by_cases hq : q = 0
  · subst hq
    refine ⟨roundEven_le ?_, .inr (if_pos rfl)⟩
    rw [abs_zero, zero_div]
    positivity
  have hpos := abs_pos.2 hq
  have hlo : (2 : ℚ) ^ Int.log 2 |q| ≤ |q| := by
    exact_mod_cast Int.zpow_log_le_self Nat.one_lt_two hpos
  have hhi : |q| < (2 : ℚ) ^ (Int.log 2 |q| + 1) := by
    exact_mod_cast Int.lt_zpow_succ_log_self Nat.one_lt_two |q|
  have he : ulpExp 24 (-149) q = max (Int.log 2 |q| + 1 - (24 : ℕ)) (-149) := if_neg hq
  constructor
  · refine roundEven_le ?_
    rw [div_le_iff₀ (by positivity)]
    have h24 : (((2 ^ 24 : ℤ) : ℚ)) = 2 ^ (24 : ℤ) := by norm_num
    rw [h24, ← zpow_add₀ (by norm_num)]
    exact hhi.le.trans (zpow_le_zpow_right₀ (by norm_num) (by rw [he]; omega))
  · by_cases hmin : ulpExp 24 (-149) q = -149
    · exact .inr hmin
    · left
      refine le_roundEven ?_
      rw [le_div_iff₀ (by positivity)]
      have h23 : (((2 ^ 23 : ℤ) : ℚ)) = 2 ^ (23 : ℤ) := by norm_num
      rw [h23, ← zpow_add₀ (by norm_num)]
      exact le_trans (zpow_le_zpow_right₀ (by norm_num) (by rw [he] at hmin ⊢; omega)) hlo

theorem ulpExp_bounds {q : ℚ} (h : |q| < 2 ^ 100) :
    -149 ≤ ulpExp 24 (-149) q ∧ ulpExp 24 (-149) q ≤ 76 := by
  by_cases hq : q = 0
  · rw [ulpExp, if_pos hq]
    omega
  · have hl : Int.log 2 |q| < 100 :=
      (Int.lt_zpow_iff_log_lt Nat.one_lt_two (abs_pos.2 hq)).1 (by exact_mod_cast h)
    rw [ulpExp, if_neg hq]
    omega

/-- **The bit pattern stands for the rounded number.** -/
theorem val_ofRat {q : ℚ} (h : |q| < 2 ^ 100) : val (ofRat q) = roundTo 24 (-149) q := by
  obtain ⟨hm, hnormal⟩ := mantissa_bounds q
  obtain ⟨he, he'⟩ := ulpExp_bounds h
  obtain ⟨e, hek⟩ : ∃ e : ℕ, ulpExp 24 (-149) q = e - 149 :=
    ⟨(ulpExp 24 (-149) q + 149).toNat, by omega⟩
  obtain ⟨m, hmk⟩ : ∃ m : ℕ, mantissa 24 (-149) q = m :=
    ⟨(mantissa 24 (-149) q).toNat, by have := @mantissa_nonneg 24 (-149) q; omega⟩
  have hmag : magnitude q = e * 2 ^ 23 + m := by
    rw [magnitude, hek, hmk]
    omega
  have hx : (ofRat q).toNat = (if q < 0 then 2 ^ 31 else 0) + (e * 2 ^ 23 + m) := by
    rw [ofRat, BitVec.toNat_ofNat, hmag]
    split <;> omega
  rw [val_of_lt (by omega) hx, roundTo, hek, hmk]
  congr 1
  rw [hek, hmk] at hnormal
  rw [hmk] at hm
  rcases lt_or_ge m (2 ^ 23) with hsub | hnorm
  · -- a number below the normal ones
    obtain rfl : e = 0 := by omega
    rw [if_pos (by omega), show (0 * 2 ^ 23 + m) % 2 ^ 23 = m by omega]
    norm_num
  · rcases lt_or_ge m (2 ^ 24) with hlt | hge
    · rw [if_neg (by omega), show 2 ^ 23 + (e * 2 ^ 23 + m) % 2 ^ 23 = m by omega,
        show (e * 2 ^ 23 + m) / 2 ^ 23 = e + 1 by omega,
        show (((e + 1 : ℕ) : ℤ) - 150) = e - 149 by omega, Int.cast_natCast]
    · -- the mantissa was rounded up to the next power of two
      obtain rfl : m = 2 ^ 24 := by omega
      rw [if_neg (by omega), show 2 ^ 23 + (e * 2 ^ 23 + 2 ^ 24) % 2 ^ 23 = 2 ^ 23 by omega,
        show (e * 2 ^ 23 + 2 ^ 24) / 2 ^ 23 = e + 2 by omega,
        show (((e + 2 : ℕ) : ℤ) - 150) = e - 149 + 1 by omega, zpow_add_one₀ (by norm_num)]
      push_cast
      ring

/-- Numbers below two are off by `2 ^ -p` at most. -/
theorem abs_roundTo_sub_le_of_lt_two {p : ℕ} {emin : ℤ} {q : ℚ} (hmin : emin ≤ 1 - p)
    (h : |q| < 2) : |roundTo p emin q - q| ≤ 2 ^ (-p : ℤ) := by
  have he : ulpExp p emin q ≤ 1 - p := by
    by_cases hq : q = 0
    · rwa [ulpExp, if_pos hq]
    · have hl : Int.log 2 |q| < 1 :=
        (Int.lt_zpow_iff_log_lt Nat.one_lt_two (abs_pos.2 hq)).1 (by exact_mod_cast h)
      rw [ulpExp, if_neg hq]
      omega
  calc |roundTo p emin q - q| ≤ 2 ^ ulpExp p emin q / 2 := abs_roundTo_sub_le
    _ ≤ 2 ^ (1 - p : ℤ) / 2 := by gcongr; norm_num
    _ = 2 ^ (-p : ℤ) := by
      rw [sub_eq_add_neg, zpow_add₀ (by norm_num)]
      norm_num

end BinaryFloat
