import Mathlib.Algebra.BigOperators.Group.List.Basic
import Mathlib.Algebra.Group.Basic
import Mathlib.Data.List.Nodup
import Mathlib.Tactic.Abel

/-!
# Tables with a running total

A table is a list of entries with pairwise distinct keys, kept beside the sum of the weights of
its entries. `Balanced` says that the total is right and the keys are distinct; the lemmas give
the total that keeps it right when an entry is appended, replaced or removed. Weights live in an
additive commutative group, so that the total can be a machine word.
-/

namespace WeightedTable

open List

variable {α κ G : Type*} [AddCommGroup G] {key : α → κ} {weight : α → G}

/-- The keys of `l` are pairwise distinct and `t` is the sum of the weights of its entries. -/
structure Balanced (key : α → κ) (weight : α → G) (l : List α) (t : G) : Prop where
  nodup : (l.map key).Nodup
  total : t = (l.map weight).sum

theorem Balanced.nil : Balanced key weight [] 0 := ⟨nodup_nil, rfl⟩

variable {l : List α} {t : G}

/-- Appending an entry under a new key. -/
theorem Balanced.append (h : Balanced key weight l t) {a : α} (ha : ∀ b ∈ l, key b ≠ key a) :
    Balanced key weight (l ++ [a]) (t + weight a) := by
  constructor
  · rw [map_append, map_singleton, nodup_append]
    refine ⟨h.nodup, nodup_singleton _, ?_⟩
    intro k hk k' hk'
    obtain ⟨b, hb, rfl⟩ := mem_map.1 hk
    rw [mem_singleton.1 hk']
    exact ha b hb
  · rw [h.total, map_append, sum_append, map_singleton, sum_singleton]

/-- The weights of a list, one entry of it apart. -/
theorem sum_eraseIdx_add (i : ℕ) (hi : i < l.length) :
    ((l.eraseIdx i).map weight).sum + weight l[i] = (l.map weight).sum := by
  induction l generalizing i with
  | nil => exact absurd hi (Nat.not_lt_zero i)
  | cons b l ih =>
    cases i with
    | zero => simp [add_comm]
    | succ i =>
      have hi' : i < l.length := by simpa using hi
      simp only [eraseIdx_cons_succ, map_cons, sum_cons, getElem_cons_succ]
      rw [add_assoc, ih i hi']

theorem sum_set (i : ℕ) (hi : i < l.length) (a : α) :
    ((l.set i a).map weight).sum = (l.map weight).sum - weight l[i] + weight a := by
  induction l generalizing i with
  | nil => exact absurd hi (Nat.not_lt_zero i)
  | cons b l ih =>
    cases i with
    | zero => simp [add_comm]
    | succ i =>
      have hi' : i < l.length := by simpa using hi
      simp only [set_cons_succ, map_cons, sum_cons, getElem_cons_succ]
      rw [ih i hi']
      abel

/-- Removing an entry. -/
theorem Balanced.eraseIdx (h : Balanced key weight l t) (i : ℕ) (hi : i < l.length) :
    Balanced key weight (l.eraseIdx i) (t - weight l[i]) := by
  constructor
  · exact h.nodup.sublist ((eraseIdx_sublist l i).map key)
  · rw [h.total, ← sum_eraseIdx_add i hi, add_sub_cancel_right]

/-- Replacing an entry by another under the same key. -/
theorem Balanced.set (h : Balanced key weight l t) (i : ℕ) (hi : i < l.length) {a : α}
    (ha : key a = key l[i]) : Balanced key weight (l.set i a) (t - weight l[i] + weight a) := by
  constructor
  · rw [map_set, ha]
    have hi' : i < (l.map key).length := by simpa using hi
    have hk : key l[i] = (l.map key)[i] := by rw [getElem_map]
    rw [hk, set_getElem_self]
    exact h.nodup
  · rw [sum_set i hi, h.total]

end WeightedTable
