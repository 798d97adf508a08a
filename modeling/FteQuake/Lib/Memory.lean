import Mathlib.Data.List.Basic
import Mathlib.Data.List.OfFn
import Mathlib.Tactic.Ring

/-!
# Flat memories

A memory is a function from addresses to cells. `slice` reads a run of cells as a list, `blit`
overwrites a run of cells with a list, `store` overwrites one cell. The lemmas say how reads and
writes of adjacent, equal and disjoint runs compose; nothing here bounds an address, so a write
past the end of a buffer is as visible as one inside it.
-/

/-- A memory: a cell at every address. -/
abbrev Mem (β : Type*) := ℕ → β

namespace Mem

open List Option

variable {β : Type*}

/-- The `n` cells from address `p` on. -/
def slice (m : Mem β) (p n : ℕ) : List β := (List.range' p n).map m

/-- Overwrite the cells from address `p` on with `xs`. -/
def blit (m : Mem β) (p : ℕ) (xs : List β) : Mem β :=
  fun a => if p ≤ a then xs[a - p]?.getD (m a) else m a

/-- Overwrite one cell. -/
def store (m : Mem β) (p : ℕ) (x : β) : Mem β := fun a => if a = p then x else m a

/-! ## Reading -/

@[simp] theorem length_slice (m : Mem β) (p n : ℕ) : (m.slice p n).length = n := by
  simp [slice]

@[simp] theorem slice_zero (m : Mem β) (p : ℕ) : m.slice p 0 = [] := rfl

theorem slice_succ (m : Mem β) (p n : ℕ) : m.slice p (n + 1) = m p :: m.slice (p + 1) n := by
  simp [slice, List.range'_succ]

theorem slice_one (m : Mem β) (p : ℕ) : m.slice p 1 = [m p] := rfl

theorem slice_add (m : Mem β) (p a b : ℕ) : m.slice p (a + b) = m.slice p a ++ m.slice (p + a) b := by
  simp only [slice, ← map_append]
  rw [List.range'_append_1]

@[simp] theorem getElem_slice (m : Mem β) (p n i : ℕ) (h : i < (m.slice p n).length) :
    (m.slice p n)[i] = m (p + i) := by
  simp [slice]

theorem slice_congr {m m' : Mem β} {p n : ℕ} (h : ∀ a, p ≤ a → a < p + n → m a = m' a) :
    m.slice p n = m'.slice p n := by
  refine map_congr_left fun a ha => ?_
  rw [mem_range'_1] at ha
  exact h a ha.1 ha.2

theorem slice_eq_iff {m : Mem β} {p : ℕ} {xs : List β} :
    m.slice p xs.length = xs ↔ ∀ i (h : i < xs.length), m (p + i) = xs[i] := by
  constructor
  · intro e i h
    rw [← getElem_slice m p xs.length i (by simpa using h)]
    exact getElem_of_eq e _
  · intro h
    refine ext_getElem (by simp) fun i h₁ h₂ => ?_
    rw [getElem_slice, h i h₂]

theorem take_slice (m : Mem β) (p n k : ℕ) (h : k ≤ n) : (m.slice p n).take k = m.slice p k := by
  obtain ⟨r, rfl⟩ := Nat.exists_eq_add_of_le h
  rw [slice_add, take_left' (by simp)]

theorem drop_slice (m : Mem β) (p n k : ℕ) : (m.slice p n).drop k = m.slice (p + k) (n - k) := by
  rcases Nat.le_total k n with h | h
  · obtain ⟨r, rfl⟩ := Nat.exists_eq_add_of_le h
    rw [slice_add, drop_left' (by simp)]
    congr 1
    omega
  · rw [drop_eq_nil_of_le (by simpa using h), Nat.sub_eq_zero_of_le h, slice_zero]

/-- The two halves of a slice that is a concatenation. -/
theorem slice_eq_append {m : Mem β} {p : ℕ} {xs ys : List β} (h : m.slice p (xs.length + ys.length) = xs ++ ys) :
    m.slice p xs.length = xs ∧ m.slice (p + xs.length) ys.length = ys := by
  rw [slice_add] at h
  exact append_inj h (by simp)

/-! ## Writing -/

theorem blit_apply_lt (m : Mem β) {p a : ℕ} (xs : List β) (h : a < p) : m.blit p xs a = m a := by
  rw [blit, if_neg (by omega)]

theorem blit_apply_ge (m : Mem β) {p a : ℕ} (xs : List β) (h : p + xs.length ≤ a) :
    m.blit p xs a = m a := by
  rw [blit, if_pos (by omega), getElem?_eq_none (by omega), getD_none]

theorem blit_apply_add (m : Mem β) (p : ℕ) (xs : List β) {i : ℕ} (h : i < xs.length) :
    m.blit p xs (p + i) = xs[i] := by
  rw [blit, if_pos (by omega), Nat.add_sub_cancel_left, getElem?_eq_getElem h, getD_some]

@[simp] theorem blit_nil (m : Mem β) (p : ℕ) : m.blit p [] = m := by
  funext a
  simp [blit]

theorem store_eq_blit (m : Mem β) (p : ℕ) (x : β) : m.store p x = m.blit p [x] := by
  funext a
  rcases Nat.lt_trichotomy a p with h | rfl | h
  · rw [blit_apply_lt _ _ h, store, if_neg (by omega)]
  · simp [store, blit]
  · rw [blit_apply_ge _ _ (by simp; omega), store, if_neg (by omega)]

@[simp] theorem store_self (m : Mem β) (p : ℕ) (x : β) : m.store p x p = x := if_pos rfl

@[simp] theorem store_store (m : Mem β) (p : ℕ) (x y : β) :
    (m.store p x).store p y = m.store p y := by
  funext a
  simp only [store]
  split <;> rfl

theorem blit_append (m : Mem β) (p : ℕ) (xs ys : List β) :
    m.blit p (xs ++ ys) = (m.blit p xs).blit (p + xs.length) ys := by
  funext a
  rcases Nat.lt_or_ge a (p + xs.length) with h | h
  · rw [blit_apply_lt _ _ h]
    rcases Nat.lt_or_ge a p with h' | h'
    · rw [blit_apply_lt _ _ h', blit_apply_lt _ _ h']
    · obtain ⟨i, rfl⟩ := Nat.exists_eq_add_of_le h'
      rw [blit_apply_add _ _ _ (by simp; omega), blit_apply_add _ _ _ (by omega),
        getElem_append_left (by omega)]
  · rcases Nat.lt_or_ge a (p + xs.length + ys.length) with h' | h'
    · obtain ⟨i, rfl⟩ := Nat.exists_eq_add_of_le h
      rw [blit_apply_add _ _ _ (by omega), show p + xs.length + i = p + (xs.length + i) by omega,
        blit_apply_add _ _ _ (by simp; omega), getElem_append_right (by omega)]
      simp
    · rw [blit_apply_ge _ _ h', blit_apply_ge _ _ h, blit_apply_ge _ _ (by rw [length_append]; omega)]

/-! ## Reading what was written -/

@[simp] theorem slice_blit_self (m : Mem β) (p : ℕ) (xs : List β) :
    (m.blit p xs).slice p xs.length = xs :=
  slice_eq_iff.2 fun _ h => blit_apply_add m p xs h

theorem slice_blit_before (m : Mem β) {p q n : ℕ} (xs : List β) (h : q + n ≤ p) :
    (m.blit p xs).slice q n = m.slice q n :=
  slice_congr fun _ _ ha => blit_apply_lt m xs (by omega)

theorem slice_blit_after (m : Mem β) {p q n : ℕ} (xs : List β) (h : p + xs.length ≤ q) :
    (m.blit p xs).slice q n = m.slice q n :=
  slice_congr fun _ ha _ => blit_apply_ge m xs (by omega)

/-- Writing `xs` right after a run appends to it. -/
theorem slice_blit_append (m : Mem β) (p n : ℕ) (xs : List β) :
    (m.blit (p + n) xs).slice p (n + xs.length) = m.slice p n ++ xs := by
  rw [slice_add, slice_blit_self, slice_blit_before _ _ le_rfl]

end Mem
