import Mathlib.Data.List.Basic
import Mathlib.Logic.Function.Basic

/-!
# Singly linked lists

Cells are addresses, and `next` gives the link of each. `Linked next p l` says that `l` are the cells from the pointer
`p` on. The loops over such a list take some fuel, of which more than there are cells is enough: `find` looks for a cell,
`unlinkAfter` and `unlinkLink` take a cell out, the first with a pointer to the cell before it and the second with a
pointer to the link that leads to it.
-/

variable {α : Type*} {next next' : α → Option α} {sel : α → Bool}

/-- The cells from a pointer on. -/
inductive Linked (next : α → Option α) : Option α → List α → Prop
  | nil : Linked next none []
  | cons {a : α} {l : List α} : Linked next (next a) l → Linked next (some a) (a :: l)

namespace Linked

/-- Look for a cell. -/
def find (next : α → Option α) (sel : α → Bool) : ℕ → Option α → Option (Option α)
  | 0, _ => none
  | _ + 1, none => some none
  | fuel + 1, some a => if sel a then some (some a) else find next sel fuel (next a)

/-- Take the first such cell out of those behind a cell. -/
def unlinkAfter [DecidableEq α] (next : α → Option α) (sel : α → Bool) : ℕ → α → Option (α → Option α)
  | 0, _ => none
  | fuel + 1, b =>
    match next b with
    | none => some next
    | some c => if sel c then some (Function.update next b (next c)) else unlinkAfter next sel fuel c

/-- Take the first such cell out; the link to the next cell is in the cell before, or in the head. -/
def unlinkLink [DecidableEq α] (head : Option α) (next : α → Option α) (sel : α → Bool) :
    ℕ → Option α → Option (Option α × (α → Option α))
  | 0, _ => none
  | fuel + 1, link =>
    match link.elim head next with
    | none => some (head, next)
    | some a =>
      if sel a then some (link.elim (next a, next) fun b => (head, Function.update next b (next a)))
      else unlinkLink head next sel fuel (some a)

/-! ## Reading -/

theorem congr {p : Option α} {l : List α} (h : Linked next p l) (heq : ∀ a ∈ l, next' a = next a) : Linked next' p l := by
  induction h with
  | nil => exact .nil
  | cons _ ih =>
    refine .cons ?_
    rw [heq _ List.mem_cons_self]
    exact ih fun a ha => heq a (.tail _ ha)

theorem find_eq {p : Option α} {l : List α} {fuel : ℕ} (h : Linked next p l) (hfuel : l.length < fuel) :
    find next sel fuel p = some (l.find? sel) := by
  induction h generalizing fuel with
  | nil =>
    obtain ⟨fuel, rfl⟩ := Nat.exists_eq_succ_of_ne_zero (Nat.ne_of_gt hfuel)
    rfl
  | @cons a l _ ih =>
    obtain ⟨fuel, rfl⟩ := Nat.exists_eq_succ_of_ne_zero (Nat.ne_of_gt (Nat.zero_lt_of_lt hfuel))
    rw [find, List.find?_cons]
    cases sel a
    · exact ih (Nat.lt_of_succ_lt_succ hfuel)
    · rfl

/-- The cells behind one of a list. -/
theorem next_of_append {p : Option α} {xs ys : List α} {a : α} (h : Linked next p (xs ++ a :: ys)) :
    Linked next (next a) ys := by
  induction xs generalizing p with
  | nil =>
    cases h with
    | cons h => exact h
  | cons x xs ih =>
    cases h with
    | cons h => exact ih h

/-! ## Taking out -/

variable [DecidableEq α]

/-- A list with one cell less: only one link is another. -/
theorem unlinkAfter_eq {b : α} {l : List α} {fuel : ℕ} (h : Linked next (next b) l) (hnd : (b :: l).Nodup)
    (hfuel : l.length < fuel) : ∃ next', unlinkAfter next sel fuel b = some next' ∧
      Linked next' (next' b) (l.eraseP sel) ∧ ∀ a, a ∉ b :: l → next' a = next a := by
  induction l generalizing b fuel with
  | nil =>
    obtain ⟨fuel, rfl⟩ := Nat.exists_eq_succ_of_ne_zero (Nat.ne_of_gt hfuel)
    generalize hb : next b = p at h
    cases h
    exact ⟨next, by rw [unlinkAfter, hb], hb ▸ .nil, fun _ _ => rfl⟩
  | cons c l ih =>
    obtain ⟨fuel, rfl⟩ := Nat.exists_eq_succ_of_ne_zero (Nat.ne_of_gt (Nat.zero_lt_of_lt hfuel))
    obtain ⟨hb, htail⟩ := List.nodup_cons.mp hnd
    generalize hp : next b = p at h
    cases h with
    | cons h =>
      rw [unlinkAfter, hp]
      dsimp only
      cases hc : sel c
      · obtain ⟨next', hrun, hlist, hkept⟩ := ih h htail (Nat.lt_of_succ_lt_succ hfuel)
        refine ⟨next', hrun, ?_, fun a ha => hkept a fun hmem => ha (.tail _ hmem)⟩
        rw [List.eraseP_cons_of_neg (by simp [hc]), hkept b hb, hp]
        exact .cons hlist
      · refine ⟨_, if_pos rfl, ?_, fun a ha => Function.update_of_ne ?_ _ _⟩
        · rw [List.eraseP_cons_of_pos hc, Function.update_self]
          refine h.congr fun a ha => Function.update_of_ne ?_ _ _
          rintro rfl
          exact hb (.tail _ ha)
        · rintro rfl
          exact ha (.head _)

/-- Behind a cell both loops do the same. -/
theorem unlinkLink_some {head : Option α} (fuel : ℕ) (b : α) :
    unlinkLink head next sel fuel (some b) = (unlinkAfter next sel fuel b).map (head, ·) := by
  induction fuel generalizing b with
  | zero => rfl
  | succ fuel ih =>
    rw [unlinkLink, unlinkAfter]
    change (match next b with | none => _ | some a => _) = _
    cases next b with
    | none => rfl
    | some c =>
      dsimp only
      cases sel c
      · exact ih c
      · rfl

theorem unlinkLink_eq {head : Option α} {l : List α} {fuel : ℕ} (h : Linked next head l) (hnd : l.Nodup)
    (hfuel : l.length < fuel) : ∃ head' next', unlinkLink head next sel fuel none = some (head', next') ∧
      Linked next' head' (l.eraseP sel) ∧ ∀ a, a ∉ l → next' a = next a := by
  obtain ⟨fuel, rfl⟩ := Nat.exists_eq_succ_of_ne_zero (Nat.ne_of_gt (Nat.zero_lt_of_lt hfuel))
  rw [unlinkLink]
  cases h with
  | nil => exact ⟨none, next, rfl, .nil, fun _ _ => rfl⟩
  | @cons a l h =>
    dsimp only [Option.elim]
    cases ha : sel a
    · obtain ⟨next', hrun, hlist, hkept⟩ := @unlinkAfter_eq _ _ sel _ _ _ _ h hnd (Nat.lt_of_succ_lt_succ hfuel)
      refine ⟨some a, next', ?_, ?_, hkept⟩
      · rw [if_neg (by simp), unlinkLink_some, hrun, Option.map_some]
      · rw [List.eraseP_cons_of_neg (by simp [ha])]
        exact .cons hlist
    · refine ⟨next a, next, rfl, ?_, fun _ _ => rfl⟩
      rwa [List.eraseP_cons_of_pos ha]

end Linked
