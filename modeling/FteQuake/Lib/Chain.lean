import Mathlib.Data.List.Basic

/-!
# Doubly linked lists

Cells are addresses, and two functions `next` and `prev` give the links of each. `Chain next prev p
l n` says that the cells of `l` hang together, after the cell `p` and before the cell `n`. Chains
split along `++` (`chain_append`), and an end of a chain may be linked to another neighbour
(`Chain.relink_first`, `Chain.relink_last`).
-/

variable {next prev next' prev' : ℕ → ℕ}

/-- The cells of `l` are linked to each other, the first back to `p` and the last on to `n`. -/
def Chain (next prev : ℕ → ℕ) : ℕ → List ℕ → ℕ → Prop
  | _, [], _ => True
  | p, a :: l, n => prev a = p ∧ next a = l.headD n ∧ Chain next prev a l n

namespace Chain

/-- The last cell of a list that follows `p`. -/
def last (p : ℕ) (l : List ℕ) : ℕ := l.getLastD p

@[simp] theorem last_nil (p : ℕ) : last p [] = p := rfl

@[simp] theorem last_cons (p a : ℕ) (l : List ℕ) : last p (a :: l) = last a l := by
  cases l <;> rfl

theorem last_append (p : ℕ) (xs ys : List ℕ) : last p (xs ++ ys) = last (last p xs) ys := by
  induction xs generalizing p with
  | nil => rfl
  | cons a xs ih => rw [List.cons_append, last_cons, last_cons, ih]

theorem headD_append (xs ys : List ℕ) (n : ℕ) : (xs ++ ys).headD n = xs.headD (ys.headD n) := by
  cases xs <;> rfl

/-- The last cell is the one before, or in the list. -/
theorem last_mem (p : ℕ) (l : List ℕ) (h : l ≠ []) : last p l ∈ l := by
  induction l generalizing p with
  | nil => exact absurd rfl h
  | cons a l ih =>
    rw [last_cons]
    by_cases hl : l = []
    · rw [hl]
      exact List.mem_singleton_self a
    · exact List.mem_cons_of_mem a (ih a hl)

end Chain

variable {l : List ℕ} {n p : ℕ}

/-- A chain of two parts. -/
theorem chain_append {xs ys : List ℕ} : Chain next prev p (xs ++ ys) n ↔
    Chain next prev p xs (ys.headD n) ∧ Chain next prev (Chain.last p xs) ys n := by
  induction xs generalizing p with
  | nil => simp [Chain]
  | cons a xs ih =>
    simp only [List.cons_append, Chain, Chain.headD_append, ih, Chain.last_cons]
    tauto

/-- Links that did not change. -/
theorem Chain.congr (h : Chain next prev p l n)
    (hnext : ∀ a ∈ l, next' a = next a) (hprev : ∀ a ∈ l, prev' a = prev a) :
    Chain next' prev' p l n := by
  induction l generalizing p with
  | nil => trivial
  | cons a l ih =>
    obtain ⟨hp, ha, h⟩ := h
    refine ⟨?_, ?_, ih h (fun b hb => hnext b (.tail a hb))
      fun b hb => hprev b (.tail a hb)⟩
    · rw [hprev a (by simp), hp]
    · rw [hnext a (by simp), ha]

/-- **Another predecessor.** The first cell is linked back to `p'`. -/
theorem Chain.relink_first {p' : ℕ} (h : Chain next prev p l n) (hl : l.Nodup)
    (hnext : ∀ a ∈ l, next' a = next a) (hprev : ∀ a ∈ l, a ≠ l.headD n → prev' a = prev a)
    (hfirst : l ≠ [] → prev' (l.headD n) = p') : Chain next' prev' p' l n := by
  cases l with
  | nil => trivial
  | cons a l =>
    obtain ⟨-, ha, h⟩ := h
    refine ⟨hfirst (List.cons_ne_nil a l), ?_, h.congr (fun b hb => hnext b ?_) fun b hb => ?_⟩
    · rw [hnext a (by simp), ha]
    · exact List.mem_cons_of_mem a hb
    · refine hprev b (.tail a hb) ?_
      rintro rfl
      exact (List.nodup_cons.1 hl).1 hb

/-- **Another successor.** The last cell is linked on to `n'`. -/
theorem Chain.relink_last {n' : ℕ} (h : Chain next prev p l n) (hl : l.Nodup)
    (hnext : ∀ a ∈ l, a ≠ Chain.last p l → next' a = next a)
    (hlast : l ≠ [] → next' (Chain.last p l) = n') (hprev : ∀ a ∈ l, prev' a = prev a) :
    Chain next' prev' p l n' := by
  induction l generalizing p with
  | nil => trivial
  | cons a l ih =>
    obtain ⟨hp, ha, h⟩ := h
    obtain ⟨hal, hl⟩ := List.nodup_cons.1 hl
    rw [last_cons] at hnext hlast
    refine ⟨?_, ?_, ih h hl (fun b hb => hnext b (.tail a hb))
      (fun _ => hlast (List.cons_ne_nil a l)) fun b hb => hprev b (.tail a hb)⟩
    · rw [hprev a (by simp), hp]
    · by_cases hl' : l = []
      · subst hl'
        exact hlast (List.cons_ne_nil a [])
      · have hne : a ≠ Chain.last a l := fun e => hal (e ▸ last_mem a l hl')
        rw [hnext a (by simp) hne, ha]
        cases l with
        | nil => exact absurd rfl hl'
        | cons b l => rfl
