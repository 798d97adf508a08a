import FteQuake.Lib.Memory

/-!
# Buffers and terminated strings in a memory

A buffer is the first `cap` cells of a memory. `put` and `puts` store into it and fail where a store
would fall outside, so that a program built of them respects its buffer exactly when it does not
fail; inside, `puts` is `blit`.

A string in a memory is a list of cells that are not 0 with a 0 behind them (`Holds`).
-/

namespace Mem

open List Option

variable {β : Type*}

/-! ## Checked stores -/

section Stores

/-- Store one cell of a buffer of `cap` cells. -/
def put (cap : ℕ) (m : Mem β) (p : ℕ) (x : β) : Option (Mem β) :=
  if p < cap then some (m.store p x) else none

/-- Store cells of a buffer one after the other. -/
def puts (cap : ℕ) (m : Mem β) (p : ℕ) : List β → Option (Mem β)
  | [] => some m
  | x :: xs => (m.put cap p x).bind fun m => m.puts cap (p + 1) xs

variable {cap p : ℕ} {m : Mem β} {x : β} {xs ys : List β}

theorem put_of_lt (h : p < cap) (m : Mem β) (x : β) : m.put cap p x = some (m.blit p [x]) := by
  rw [put, if_pos h, store_eq_blit]

theorem put_of_le (h : cap ≤ p) (m : Mem β) (x : β) : m.put cap p x = none :=
  if_neg (not_lt.2 h)

theorem puts_of_le (h : p + xs.length ≤ cap) (m : Mem β) : m.puts cap p xs = some (m.blit p xs) := by
  induction xs generalizing p m with
  | nil => rw [puts, blit_nil]
  | cons x xs ih =>
    rw [length_cons] at h
    have happend : m.blit p (x :: xs) = (m.blit p [x]).blit (p + 1) xs := blit_append m p [x] xs
    rw [puts, put_of_lt (by omega), bind_some, ih (by omega), happend]

theorem puts_of_lt (h : cap < p + xs.length) (hne : xs ≠ []) (m : Mem β) : m.puts cap p xs = none := by
  induction xs generalizing p m with
  | nil => exact absurd rfl hne
  | cons x xs ih =>
    rw [length_cons] at h
    rw [puts]
    by_cases hp : p < cap
    · rw [put_of_lt hp, bind_some]
      refine ih (by omega) ?_ _
      rintro rfl
      exact absurd h (by simp only [length_nil]; omega)
    · rw [put_of_le (not_lt.1 hp), bind_none]

theorem eq_blit_of_puts {m' : Mem β} (h : m.puts cap p xs = some m') : m' = m.blit p xs := by
  rcases Nat.lt_or_ge cap (p + xs.length) with hlt | hle
  · by_cases hne : xs = []
    · subst hne
      rw [blit_nil]
      exact (some.inj h).symm
    · rw [puts_of_lt hlt hne] at h
      cases h
  · rw [puts_of_le hle] at h
    exact (some.inj h).symm

end Stores

/-! ## Terminated strings -/

section Strings

variable [Zero β]

/-- The string `s` lies at `p`. -/
structure Holds (m : Mem β) (p : ℕ) (s : List β) : Prop where
  zero_notMem : 0 ∉ s
  slice : m.slice p (s.length + 1) = s ++ [0]

variable {m : Mem β} {p : ℕ} {s t : List β}

theorem Holds.chars (h : m.Holds p s) : m.slice p s.length = s := by
  have hslice := h.slice
  rw [slice_add] at hslice
  exact (append_inj hslice (by simp)).1

theorem Holds.apply_length (h : m.Holds p s) : m (p + s.length) = 0 := by
  have hslice := h.slice
  rw [slice_add, slice_one] at hslice
  exact singleton_inj.1 (append_inj hslice (by simp)).2

theorem Holds.apply_of_lt (h : m.Holds p s) {i : ℕ} (hi : i < s.length) : m (p + i) = s[i] :=
  slice_eq_iff.1 h.chars i hi

theorem holds_iff : m.Holds p s ↔ 0 ∉ s ∧ m.slice p s.length = s ∧ m (p + s.length) = 0 := by
  constructor
  · intro h
    exact ⟨h.zero_notMem, h.chars, h.apply_length⟩
  · rintro ⟨hzero, hchars, hend⟩
    exact ⟨hzero, by rw [slice_add, hchars, slice_one, hend]⟩

/-- There is one string at a place. -/
theorem Holds.unique (h : m.Holds p s) (h' : m.Holds p t) : s = t := by
  have key {s t : List β} (h : m.Holds p s) (h' : m.Holds p t) : s.length ≤ t.length := by
    by_contra hlt
    rw [not_le] at hlt
    refine h.zero_notMem ?_
    have hzero := h.apply_of_lt hlt
    rw [h'.apply_length] at hzero
    rw [hzero]
    exact getElem_mem _
  have hlength := le_antisymm (key h h') (key h' h)
  rw [← h.chars, ← h'.chars, hlength]

/-- The string that is stored with its terminator. -/
theorem holds_blit (m : Mem β) (p : ℕ) (hs : 0 ∉ s) : (m.blit p (s ++ [0])).Holds p s := by
  refine ⟨hs, ?_⟩
  have := slice_blit_self m p (s ++ [0])
  rwa [length_append, length_singleton] at this

/-- Storing a string behind another one's first cells joins them. -/
theorem Holds.append_blit (h : m.slice p s.length = s) (hs : 0 ∉ s) (ht : 0 ∉ t) :
    (m.blit (p + s.length) (t ++ [0])).Holds p (s ++ t) := by
  refine ⟨by simp [hs, ht], ?_⟩
  have := slice_blit_append m p s.length (t ++ [0])
  rw [h, ← append_assoc] at this
  simpa [Nat.add_assoc] using this

variable [DecidableEq β]

/-- `strlen`, of a string in a block of `cap` cells. -/
def strlen (cap : ℕ) (m : Mem β) (p : ℕ) : ℕ := ((m.slice p cap).takeWhile (· ≠ 0)).length

theorem Holds.strlen (h : m.Holds p s) {cap : ℕ} (hcap : s.length < cap) : m.strlen cap p = s.length := by
  obtain ⟨r, rfl⟩ := Nat.exists_eq_add_of_lt hcap
  rw [Mem.strlen, show s.length + r + 1 = s.length + 1 + r by omega, slice_add, h.slice, append_assoc,
    takeWhile_append_of_pos]
  · simp
  · intro c hc
    simp only [decide_not, Bool.not_eq_eq_eq_not, Bool.not_true, decide_eq_false_iff_not]
    rintro rfl
    exact h.zero_notMem hc

end Strings

end Mem
