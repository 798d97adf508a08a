import Mathlib.Data.BitVec
import Mathlib.Data.Nat.Bitwise

/-!
# Flag words

Testing and setting single bits of a machine word: `x &&& (1 <<< i) ≠ 0` is bit `i` of `x`, and a
word put together by `|||` from flags has the bits of the flags.
-/

namespace BitFlags

open BitVec

variable {w : ℕ}

theorem shl_one_ne_zero {i : ℕ} (h : i < w) : (1#w <<< i) ≠ 0#w := by
  intro e
  have := congrArg (fun x => BitVec.getLsbD x i) e
  simp [h, ← twoPow_eq] at this

theorem and_shl_one (x : BitVec w) (i : ℕ) :
    x &&& (1#w <<< i) = if x.getLsbD i then 1#w <<< i else 0#w := by
  rw [← twoPow_eq, and_twoPow]

/-- **A flag test reads one bit.** -/
theorem and_shl_one_ne_zero (x : BitVec w) {i : ℕ} (h : i < w) :
    x &&& (1#w <<< i) ≠ 0#w ↔ x.getLsbD i = true := by
  rw [and_shl_one]
  split <;> simp_all [shl_one_ne_zero h]

/-- A flag above a number. -/
theorem and_shl_one_of_lt {x : BitVec w} {i : ℕ} (h : x.toNat < 2 ^ i) :
    x &&& (1#w <<< i) = 0#w := by
  rw [and_shl_one, if_neg]
  rw [BitVec.getLsbD, Nat.testBit_lt_two_pow h]
  exact Bool.false_ne_true

theorem getLsbD_ofNat {n i : ℕ} (h : i < w) :
    (BitVec.ofNat w n).getLsbD i = decide (n / 2 ^ i % 2 = 1) := by
  rw [BitVec.getLsbD_ofNat, Nat.testBit_eq_decide_div_mod_eq]
  simp [h]

/-- A flag test on a widened word. -/
theorem setWidth_and_ne_zero {v : ℕ} (h : w ≤ v) (x f : BitVec w) :
    x.setWidth v &&& f.setWidth v ≠ 0#v ↔ x &&& f ≠ 0#w := by
  rw [← setWidth_and, not_iff_not]
  refine ⟨fun e => ?_, fun e => by rw [e, setWidth_zero]⟩
  have e' := congrArg (BitVec.setWidth w) e
  rwa [setWidth_setWidth_of_le _ h, setWidth_eq, setWidth_zero] at e'

/-! ## Words put together from flags -/

/-- `if (c) x |= f`. -/
def orIf (c : Prop) [Decidable c] (f x : BitVec w) : BitVec w := if c then x ||| f else x

theorem orIf_neg {c : Prop} [Decidable c] {f x : BitVec w} (h : ¬c) : orIf c f x = x := if_neg h

theorem or_and (x f g : BitVec w) : (x ||| f) &&& g = (x &&& g) ||| (f &&& g) := by
  ext i
  simp [Bool.and_or_distrib_right]

theorem or_eq_zero {x y : BitVec w} : x ||| y = 0#w ↔ x = 0#w ∧ y = 0#w := by
  refine ⟨fun h => ?_, by rintro ⟨rfl, rfl⟩; simp⟩
  have hn := congrArg BitVec.toNat h
  rw [toNat_or, toNat_ofNat, Nat.zero_mod, Nat.or_eq_zero_iff] at hn
  exact ⟨eq_of_toNat_eq (by simpa using hn.1), eq_of_toNat_eq (by simpa using hn.2)⟩

/-- Two words share a flag. -/
theorem and_ne_zero_iff {x y : BitVec w} :
    x &&& y ≠ 0#w ↔ ∃ i, x.getLsbD i = true ∧ y.getLsbD i = true := by
  constructor
  · intro h
    by_contra hnone
    apply h
    ext i hi
    have hi' := not_exists.1 hnone i
    simp only [getLsbD_eq_getElem hi] at hi'
    simpa using hi'
  · rintro ⟨i, hx, hy⟩ e
    have hbit := congrArg (fun z => BitVec.getLsbD z i) e
    simp [hx, hy] at hbit

/-- Flags that are among others. -/
theorem and_ne_zero_of_subset {x f g : BitVec w} (hfg : f &&& ~~~g = 0#w) (h : x &&& f ≠ 0#w) :
    x &&& g ≠ 0#w := by
  obtain ⟨i, hx, hf⟩ := and_ne_zero_iff.1 h
  have hlt : i < w := lt_of_getLsbD hf
  have hbit := congrArg (fun z => BitVec.getLsbD z i) hfg
  simp only [getLsbD_and, getLsbD_not, getLsbD_zero, hf, hlt, decide_true, Bool.true_and, Bool.not_eq_false'] at hbit
  exact and_ne_zero_iff.2 ⟨i, hx, hbit⟩

theorem or_and_ne_zero {x f m : BitVec w} (h : x &&& m ≠ 0#w) : (x ||| f) &&& m ≠ 0#w := by
  rw [or_and]
  exact fun e => h (or_eq_zero.1 e).1

theorem or_and_ne_zero_right {x f m : BitVec w} (h : f &&& m ≠ 0#w) : (x ||| f) &&& m ≠ 0#w := by
  rw [or_and]
  exact fun e => h (or_eq_zero.1 e).2

theorem and_not_or_and (x m : BitVec w) : x &&& ~~~m ||| x &&& m = x := by
  ext i
  simp only [getElem_or, getElem_and, getElem_not]
  cases x[i] <;> cases m[i] <;> rfl

/-- The part of a merged word under the mask. -/
theorem merge_and (x y m : BitVec w) : (x &&& m ||| y &&& ~~~m) &&& m = x &&& m := by
  ext i
  simp only [getElem_or, getElem_and, getElem_not]
  cases x[i] <;> cases m[i] <;> simp

/-- The part of a merged word outside the mask. -/
theorem merge_and_not (x y m : BitVec w) : (x &&& m ||| y &&& ~~~m) &&& ~~~m = y &&& ~~~m := by
  ext i
  simp only [getElem_or, getElem_and, getElem_not]
  cases y[i] <;> cases m[i] <;> simp

/-- The part of a merge of two fields under the mask of the first. -/
theorem fields_and (x y m m' : BitVec w) (h : m' &&& m = 0#w) :
    (x &&& m ||| y &&& m') &&& m = x &&& m := by
  rw [or_and, BitVec.and_assoc, BitVec.and_assoc, h, BitVec.and_self, BitVec.and_zero, BitVec.or_zero]

/-- Clearing flags outside a mask does not show under it. -/
theorem and_not_and {x f g : BitVec w} (h : f &&& g = 0#w) : x &&& ~~~f &&& g = x &&& g := by
  ext i hi
  have e := congrArg (fun y => y[i]) h
  simp only [getElem_and, getElem_not, getElem_zero] at e ⊢
  generalize f[i] = a at e ⊢
  generalize g[i] = b at e ⊢
  cases a <;> cases b <;> simp_all

/-- Clearing flags that are not set. -/
theorem and_not_of_and_eq_zero {x f : BitVec w} (h : x &&& f = 0#w) : x &&& ~~~f = x := by
  have e := and_not_or_and x f
  rwa [h, BitVec.or_zero] at e

/-- A cleared flag. -/
theorem and_not_self (x f : BitVec w) : x &&& ~~~f &&& f = 0#w := by
  ext i
  simp only [getElem_and, getElem_not, getElem_zero]
  cases f[i] <;> simp

/-- A part of a word, moved back to its place. -/
theorem shiftRight_and_shiftLeft (x m : BitVec w) (n : ℕ) :
    (x >>> n &&& m) <<< n = x &&& m <<< n := by
  ext i hi
  by_cases h : i < n
  · simp [h]
  · simp only [getElem_shiftLeft, getElem_and, getElem_ushiftRight, h, decide_false, Bool.not_false, Bool.true_and]
    rw [Nat.add_sub_cancel' (not_lt.1 h), getLsbD_eq_getElem hi]

/-- A test against several flags. -/
theorem and_or_eq_zero {x f g : BitVec w} :
    x &&& (f ||| g) = 0#w ↔ x &&& f = 0#w ∧ x &&& g = 0#w := by
  rw [BitVec.and_comm, or_and, or_eq_zero, BitVec.and_comm f, BitVec.and_comm g]

/-- Flags outside a mask do not show under it. -/
theorem orIf_and_of_and_eq_zero {c : Prop} [Decidable c] {f x g : BitVec w} (h : f &&& g = 0#w) :
    orIf c f x &&& g = x &&& g := by
  unfold orIf
  split
  · rw [or_and, h, BitVec.or_zero]
  · rfl

/-- **A flag test on a word put together from flags.** -/
@[simp] theorem orIf_and_eq_zero {c : Prop} [Decidable c] {f x g : BitVec w} :
    orIf c f x &&& g = 0#w ↔ (c → f &&& g = 0#w) ∧ x &&& g = 0#w := by
  unfold orIf
  by_cases hc : c
  · rw [if_pos hc, or_and, or_eq_zero]
    tauto
  · rw [if_neg hc]
    tauto

/-- The flag itself, in a word that did not have it. -/
theorem orIf_and_self_ne_zero {c : Prop} [Decidable c] {f x : BitVec w} (hf : f ≠ 0#w)
    (hx : x &&& f = 0#w) : orIf c f x &&& f ≠ 0#w ↔ c := by
  rw [ne_eq, orIf_and_eq_zero, BitVec.and_self]
  tauto

/-- A flag that announces bits under a mask. -/
theorem orIf_announces {x f m : BitVec w} (hf : f ≠ 0#w) (hfm : f &&& m = 0#w) (hx : x &&& f = 0#w) :
    orIf (x &&& m ≠ 0#w) f x &&& f ≠ 0#w ↔ orIf (x &&& m ≠ 0#w) f x &&& m ≠ 0#w := by
  rw [orIf_and_of_and_eq_zero hfm, ne_eq, orIf_and_eq_zero, BitVec.and_self]
  tauto

theorem orIf_lt {c : Prop} [Decidable c] {f x : BitVec w} {n : ℕ} (hf : f.toNat < 2 ^ n)
    (hx : x.toNat < 2 ^ n) : (orIf c f x).toNat < 2 ^ n := by
  unfold orIf
  split
  · rw [toNat_or]
    exact Nat.or_lt_two_pow hx hf
  · exact hx

end BitFlags
