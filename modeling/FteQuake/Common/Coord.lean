import FteQuake.Common.EntityState

/-!
# Fixed-point coordinates in exact arithmetic

`MSG_ToCoord` and `MSG_FromCoord` of `common.c` for the three fixed-point types, on rational
coordinates. A coordinate comes back within one step of where it was as long as it is in the range
of the type (`coord_codec`), and where it was when it is a multiple of the step of a type that
rounds.

`COORDTYPE_FIXED_13_3` has 13 bits before the point. `COORDTYPE_FIXED_28_4` rounds by way of a
`short`, and so has 12 of them. `COORDTYPE_FIXED_16_8` keeps the whole part and the fraction, counted
in steps of 1/255, apart, both towards zero. The fraction of a negative coordinate is negative, and
its byte is read as a positive one.
-/

namespace FteQuake

namespace Coord

open BinaryFloat

/-! ## The two functions -/

/-- The conversion of an integer value to a signed type of `w + 1` bits, undefined where it does not fit. -/
def toSigned (w : ℕ) (t : ℤ) : Option (BitVec (w + 1)) :=
  if -2 ^ w ≤ t ∧ t < 2 ^ w then some (BitVec.ofInt (w + 1) t) else none

/-- `f*k + 0.5f`, or `f*k - 0.5f` when `f` is negative, converted to an integer. -/
def scaled (f k : ℚ) : ℤ := if f ≥ 0 then trunc (f * k + 1 / 2) else trunc (f * k - 1 / 2)

/-- `MSG_ToCoord`: the four bytes of a `coorddata`, low first. -/
def msgToCoord (f : ℚ) (type : QByte) : Option (BitVec 32) :=
  if type = coordtypeFixed13_3 then (toSigned 15 (scaled f 8)).map (BitVec.setWidth 32)
  else if type = coordtypeFixed16_8 then do
    let b2 ← toSigned 15 (trunc f)
    let b ← toSigned 31 (trunc (f * 255))
    return b2.setWidth 32 ||| ((BitVec.ofInt 8 (b.toInt.tmod 255)).setWidth 32) <<< 16
  else if type = coordtypeFixed28_4 then (toSigned 15 (scaled f 16)).map (BitVec.signExtend 32)
  else none

/-- `MSG_FromCoord`. -/
def msgFromCoord (c : BitVec 32) (type : QByte) : Option ℚ :=
  if type = coordtypeFixed13_3 then some ((c.setWidth 16).toInt / 8)
  else if type = coordtypeFixed16_8 then
    some ((c.setWidth 16).toInt + ((c >>> 16).setWidth 8).toNat * (1 / 255))
  else if type = coordtypeFixed28_4 then some (c.toInt / 16)
  else none

/-- The coordinate that arrives when `f` is sent. -/
def wireCoord (f : ℚ) (type : QByte) : Option ℚ := do
  let c ← msgToCoord f type
  msgFromCoord c type

/-! ## Rounding -/

theorem toSigned_of_range {w : ℕ} {t : ℤ} (h : -2 ^ w ≤ t) (h' : t < 2 ^ w) :
    toSigned w t = some (BitVec.ofInt (w + 1) t) :=
  if_pos ⟨h, h'⟩

theorem trunc_of_nonneg {q : ℚ} (h : 0 ≤ q) : trunc q = ⌊q⌋ := if_pos h

theorem trunc_of_nonpos {q : ℚ} (h : q ≤ 0) : trunc q = ⌈q⌉ := by
  rcases h.lt_or_eq with h | rfl
  · exact if_neg (not_le.2 h)
  · simp [trunc]

variable {f k : ℚ}

/-- Rounding moves a number by half a step at most. -/
theorem abs_scaled_sub_le (hk : 0 ≤ k) : |(scaled f k : ℚ) - f * k| ≤ 1 / 2 := by
  unfold scaled
  rw [abs_le]
  split
  · rename_i hf
    have hpos : 0 ≤ f * k := mul_nonneg hf hk
    rw [trunc_of_nonneg (by linarith)]
    have hle := Int.floor_le (f * k + 1 / 2)
    have hlt := Int.lt_floor_add_one (f * k + 1 / 2)
    constructor <;> linarith
  · rename_i hf
    have hneg : f * k ≤ 0 := mul_nonpos_of_nonpos_of_nonneg (not_le.1 hf).le hk
    rw [trunc_of_nonpos (by linarith)]
    have hle := Int.le_ceil (f * k - 1 / 2)
    have hlt := Int.ceil_lt_add_one (f * k - 1 / 2)
    constructor <;> linarith

/-- Numbers of whole steps are not moved. -/
theorem scaled_of_int (hk : 0 ≤ k) {n : ℤ} (h : f * k = n) : scaled f k = n := by
  have hnear := abs_le.1 (abs_scaled_sub_le (f := f) hk)
  rw [h] at hnear
  have hlt : scaled f k < n + 1 := by
    exact_mod_cast show (scaled f k : ℚ) < n + 1 by linarith
  have hgt : n - 1 < scaled f k := by
    exact_mod_cast show (n : ℚ) - 1 < scaled f k by linarith
  omega

/-- The coordinates that round to a `short`. -/
theorem toSigned_scaled (hk : 0 ≤ k) (h : -32768 - 1 / 2 < f * k) (h' : f * k < 32768 - 1 / 2) :
    toSigned 15 (scaled f k) = some (BitVec.ofInt 16 (scaled f k)) ∧
      (BitVec.ofInt 16 (scaled f k)).toInt = scaled f k := by
  have hnear := abs_le.1 (abs_scaled_sub_le (f := f) hk)
  have hlt : scaled f k < 32768 := by
    exact_mod_cast show (scaled f k : ℚ) < 32768 by linarith
  have hgt : -32769 < scaled f k := by
    exact_mod_cast show (-32769 : ℚ) < scaled f k by linarith
  have hge : -2 ^ 15 ≤ scaled f k := by omega
  exact ⟨toSigned_of_range hge hlt, toInt_ofInt_of_range hge hlt⟩

/-! ## The types that round -/

/-- A coordinate `g` within a step of `f`, and the same when `f` is a number of whole steps. -/
structure Near (step f g : ℚ) : Prop where
  dist : |g - f| ≤ step
  exact : (∃ n : ℤ, f = n * step) → g = f

theorem near_scaled (hk : 0 < k) : Near (1 / k) f (scaled f k / k) := by
  constructor
  · have hnear := abs_scaled_sub_le (f := f) hk.le
    have hdiv : (scaled f k / k - f) = (scaled f k - f * k) / k := by
      field_simp
    rw [hdiv, abs_div, abs_of_pos hk]
    gcongr
    linarith
  · rintro ⟨n, hn⟩
    have hwhole : f * k = n := by
      rw [hn]
      field_simp
    rw [scaled_of_int hk.le hwhole, ← hwhole]
    field_simp

theorem wireCoord_of_some {type : QByte} {c : BitVec 32} (h : msgToCoord f type = some c) :
    wireCoord f type = msgFromCoord c type := by
  rw [wireCoord, h]
  rfl

theorem wire_13_3 (h : -32768 - 1 / 2 < f * 8) (h' : f * 8 < 32768 - 1 / 2) :
    ∃ g, wireCoord f coordtypeFixed13_3 = some g ∧ Near (1 / 8) f g := by
  obtain ⟨hsome, hvalue⟩ := toSigned_scaled (by norm_num) h h'
  refine ⟨scaled f 8 / 8, ?_, near_scaled (by norm_num)⟩
  have hto : msgToCoord f coordtypeFixed13_3 = some ((BitVec.ofInt 16 (scaled f 8)).setWidth 32) := by
    rw [msgToCoord, if_pos rfl, hsome, Option.map_some]
  have hlow : ((BitVec.ofInt 16 (scaled f 8)).setWidth 32).setWidth 16 = BitVec.ofInt 16 (scaled f 8) := by
    rw [BitVec.setWidth_setWidth_of_le _ (by omega), BitVec.setWidth_eq]
  rw [wireCoord_of_some hto, msgFromCoord, if_pos rfl, hlow, hvalue]

theorem wire_28_4 (h : -32768 - 1 / 2 < f * 16) (h' : f * 16 < 32768 - 1 / 2) :
    ∃ g, wireCoord f coordtypeFixed28_4 = some g ∧ Near (1 / 16) f g := by
  obtain ⟨hsome, hvalue⟩ := toSigned_scaled (by norm_num) h h'
  refine ⟨scaled f 16 / 16, ?_, near_scaled (by norm_num)⟩
  have hto : msgToCoord f coordtypeFixed28_4 = some ((BitVec.ofInt 16 (scaled f 16)).signExtend 32) := by
    rw [msgToCoord, if_neg (by decide), if_neg (by decide), if_pos rfl, hsome, Option.map_some]
  rw [wireCoord_of_some hto, msgFromCoord, if_neg (by decide), if_neg (by decide), if_pos rfl,
    BitVec.toInt_signExtend_of_le (by omega), hvalue]

/-! ## The type that keeps whole part and fraction -/

/-- The two parts together count the steps of 1/255. -/
theorem parts_16_8 (hfrac : 0 ≤ f ∨ (255 : ℤ) ∣ trunc (f * 255)) :
    0 ≤ (trunc (f * 255)).tmod 255 ∧ trunc f * 255 + (trunc (f * 255)).tmod 255 = trunc (f * 255) := by
  by_cases hf : 0 ≤ f
  · rw [trunc_of_nonneg hf, trunc_of_nonneg (by linarith)]
    have hm : 0 ≤ ⌊f * 255⌋ := Int.floor_nonneg.2 (by linarith)
    have hle : ⌊f⌋ * 255 ≤ ⌊f * 255⌋ := by
      refine Int.le_floor.2 ?_
      push_cast
      linarith [Int.floor_le f]
    have hlt : ⌊f * 255⌋ < (⌊f⌋ + 1) * 255 := by
      refine Int.floor_lt.2 ?_
      push_cast
      linarith [Int.lt_floor_add_one f]
    rw [Int.tmod_eq_emod_of_nonneg hm]
    omega
  · obtain ⟨n, hn⟩ := hfrac.resolve_left hf
    have hneg := not_le.1 hf
    have hceil : ⌈f * 255⌉ = 255 * n := by rwa [trunc_of_nonpos (by linarith)] at hn
    obtain ⟨hgt, hle⟩ := Int.ceil_eq_iff.1 hceil
    push_cast at hgt hle
    have hwhole : trunc f = n := by
      rw [trunc_of_nonpos hneg.le]
      exact Int.ceil_eq_iff.2 ⟨by linarith, by linarith⟩
    rw [hn, hwhole, Int.mul_tmod_right]
    omega

theorem abs_trunc_sub_lt (q : ℚ) : |(trunc q : ℚ) - q| < 1 := by
  rw [abs_lt]
  rcases le_total 0 q with h | h
  · rw [trunc_of_nonneg h]
    constructor <;> linarith [Int.floor_le q, Int.lt_floor_add_one q]
  · rw [trunc_of_nonpos h]
    constructor <;> linarith [Int.le_ceil q, Int.ceil_lt_add_one q]

/-- The parts of a `coorddata` that is put together of a `short` and a byte. -/
theorem parts_or (x : BitVec 16) (y : BitVec 8) :
    (x.setWidth 32 ||| y.setWidth 32 <<< 16).setWidth 16 = x ∧
      ((x.setWidth 32 ||| y.setWidth 32 <<< 16) >>> 16).setWidth 8 = y := by
  constructor
  · ext i hi
    simp
  · ext i hi
    simp [show 16 + i < 32 by omega, show i < 32 by omega, BitVec.getLsbD_eq_getElem hi]

theorem wire_16_8 (h : -32768 ≤ f) (h' : f < 32768) (hfrac : 0 ≤ f ∨ (255 : ℤ) ∣ trunc (f * 255)) :
    ∃ g, wireCoord f coordtypeFixed16_8 = some g ∧ |g - f| ≤ 1 / 255 := by
  obtain ⟨hnonneg, hparts⟩ := parts_16_8 hfrac
  have hlt := Int.tmod_lt_of_pos (trunc (f * 255)) (show (0 : ℤ) < 255 by omega)
  have hlow : -2 ^ 15 ≤ trunc f := le_trunc (by push_cast; linarith)
  have hhigh : trunc f < 2 ^ 15 := by
    rcases le_total 0 f with hf | hf
    · rw [trunc_of_nonneg hf]
      exact Int.floor_lt.2 (by push_cast; linarith)
    · have := trunc_le (n := 0) (by push_cast; exact hf)
      omega
  have hto : msgToCoord f coordtypeFixed16_8 = some ((BitVec.ofInt 16 (trunc f)).setWidth 32 |||
      (BitVec.ofInt 8 ((trunc (f * 255)).tmod 255)).setWidth 32 <<< 16) := by
    rw [msgToCoord, if_neg (by decide), if_pos rfl, toSigned_of_range hlow hhigh,
      toSigned_of_range (by omega) (by omega)]
    change some (_ ||| (BitVec.ofInt 8 ((BitVec.ofInt 32 (trunc (f * 255))).toInt.tmod 255)).setWidth 32 <<< 16) = _
    rw [toInt_ofInt_of_range (by omega) (by omega)]
  have hbyte : (BitVec.ofInt 8 ((trunc (f * 255)).tmod 255)).toNat = (trunc (f * 255)).tmod 255 := by
    rw [BitVec.toNat_ofInt]
    omega
  obtain ⟨hshort, hfraction⟩ := parts_or (BitVec.ofInt 16 (trunc f)) (BitVec.ofInt 8 ((trunc (f * 255)).tmod 255))
  refine ⟨trunc (f * 255) / 255, ?_, ?_⟩
  · rw [wireCoord_of_some hto, msgFromCoord, if_neg (by decide), if_pos rfl, hshort, hfraction,
      toInt_ofInt_of_range hlow hhigh]
    have hsteps : (trunc f : ℚ) * 255 + ((trunc (f * 255)).tmod 255 : ℤ) = trunc (f * 255) := by
      exact_mod_cast hparts
    have hcast : ((BitVec.ofInt 8 ((trunc (f * 255)).tmod 255)).toNat : ℚ) = ((trunc (f * 255)).tmod 255 : ℤ) := by
      exact_mod_cast hbyte
    rw [hcast, ← hsteps]
    congr 1
    ring
  · have hnear := abs_trunc_sub_lt (f * 255)
    have hdiv : (trunc (f * 255) : ℚ) / 255 - f = (trunc (f * 255) - f * 255) / 255 := by
      field_simp
    rw [hdiv, abs_div, abs_of_pos (by norm_num : (0 : ℚ) < 255)]
    gcongr

/-! ## All three types -/

/-- **Fixed-point coordinates come back** to within a step in the range of their type, and those of
whole steps of 1/8 and 1/16 as they were. A coordinate of `COORDTYPE_FIXED_16_8` is one that is not
negative, or that has no whole steps behind the point. -/
theorem coord_codec (f : ℚ) :
    (-4096 - 1 / 16 < f → f < 4096 - 1 / 16 →
      ∃ g, wireCoord f coordtypeFixed13_3 = some g ∧ |g - f| ≤ 1 / 8 ∧ ((∃ n : ℤ, f = n * (1 / 8)) → g = f)) ∧
    (-32768 ≤ f → f < 32768 → 0 ≤ f ∨ (255 : ℤ) ∣ trunc (f * 255) →
      ∃ g, wireCoord f coordtypeFixed16_8 = some g ∧ |g - f| ≤ 1 / 255) ∧
    (-2048 - 1 / 32 < f → f < 2048 - 1 / 32 →
      ∃ g, wireCoord f coordtypeFixed28_4 = some g ∧ |g - f| ≤ 1 / 16 ∧
        ((∃ n : ℤ, f = n * (1 / 16)) → g = f)) := by
  refine ⟨fun h h' => ?_, wire_16_8, fun h h' => ?_⟩
  · obtain ⟨g, hg, hnear⟩ := wire_13_3 (f := f) (by linarith) (by linarith)
    exact ⟨g, hg, hnear.dist, hnear.exact⟩
  · obtain ⟨g, hg, hnear⟩ := wire_28_4 (f := f) (by linarith) (by linarith)
    exact ⟨g, hg, hnear.dist, hnear.exact⟩

theorem coord_codec_eighths :
    (∃ g, wireCoord (801 / 8) coordtypeFixed13_3 = some g ∧ |g - 801 / 8| ≤ 1 / 8 ∧
      ((∃ n : ℤ, (801 / 8 : ℚ) = n * (1 / 8)) → g = 801 / 8)) ∧
    (∃ g, wireCoord (801 / 8) coordtypeFixed16_8 = some g ∧ |g - 801 / 8| ≤ 1 / 255) ∧
    ∃ g, wireCoord (801 / 8) coordtypeFixed28_4 = some g ∧ |g - 801 / 8| ≤ 1 / 16 ∧
      ((∃ n : ℤ, (801 / 8 : ℚ) = n * (1 / 16)) → g = 801 / 8) := by
  obtain ⟨h8, h255, h16⟩ := coord_codec (801 / 8)
  exact ⟨h8 (by norm_num) (by norm_num), h255 (by norm_num) (by norm_num) (.inl (by norm_num)),
    h16 (by norm_num) (by norm_num)⟩

/-- **Outside, they do not**: 5000 is no coordinate of the first type and 3000 none of the third, and
of the second type -1/2 arrives as 129/255. -/
theorem coord_escapes :
    (¬∀ f : ℚ, -32768 ≤ f → f < 32768 → ∃ g, wireCoord f coordtypeFixed13_3 = some g ∧ |g - f| ≤ 1 / 8) ∧
    (¬∀ f : ℚ, -32768 ≤ f → f < 32768 → ∃ g, wireCoord f coordtypeFixed16_8 = some g ∧ |g - f| ≤ 1 / 255) ∧
    ¬∀ f : ℚ, -134217728 ≤ f → f < 134217728 →
      ∃ g, wireCoord f coordtypeFixed28_4 = some g ∧ |g - f| ≤ 1 / 16 := by
  refine ⟨fun h => ?_, fun h => ?_, fun h => ?_⟩
  · obtain ⟨g, hg, -⟩ := h 5000 (by norm_num) (by norm_num)
    have hwire : wireCoord 5000 coordtypeFixed13_3 = none := by decide +kernel
    exact nomatch hwire.symm.trans hg
  · obtain ⟨g, hg, hnear⟩ := h (-1 / 2) (by norm_num) (by norm_num)
    have hwire : wireCoord (-1 / 2) coordtypeFixed16_8 = some (129 / 255) := by decide +kernel
    cases hwire.symm.trans hg
    exact absurd hnear (by norm_num [abs_le])
  · obtain ⟨g, hg, -⟩ := h 3000 (by norm_num) (by norm_num)
    have hwire : wireCoord 3000 coordtypeFixed28_4 = none := by decide +kernel
    exact nomatch hwire.symm.trans hg

end Coord

end FteQuake
