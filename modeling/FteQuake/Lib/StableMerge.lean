import Mathlib.Data.List.Basic
import Mathlib.Data.List.Perm.Basic
import Mathlib.Tactic.Ring

/-!
# Merge sort from the bottom up

A list is taken as runs of `w` elements, of which neighbours are merged; then the runs are twice as long. What comes out
when there is one run is in order (`pairwise_sort`), has the same elements (`sort_perm`), and leaves elements that are
equal in the order as they were (`filter_sort`).
-/

namespace StableMerge

open List

variable {β : Type*} (le : β → β → Bool)

/-- One pass: runs of `w` elements are merged two by two. There is no pass with runs of none. -/
def mergeRuns (w : ℕ) (xs : List β) : List β :=
  if xs = [] ∨ w = 0 then xs
  else List.merge (xs.take w) ((xs.drop w).take w) le ++ mergeRuns w (xs.drop (w * 2))
termination_by xs.length
decreasing_by
  have hlen : 0 < xs.length := List.length_pos_of_ne_nil (by tauto)
  rw [List.length_drop]
  omega

/-- The first two runs, and the rest. -/
theorem take_append_take_append_drop (w : ℕ) (xs : List β) :
    xs.take w ++ (xs.drop w).take w ++ xs.drop (w * 2) = xs := by
  rw [show w * 2 = w + w by ring, ← drop_drop, append_assoc, take_append_drop, take_append_drop]

@[simp] theorem mergeRuns_nil (w : ℕ) : mergeRuns le w [] = [] := by rw [mergeRuns, if_pos (.inl rfl)]

theorem mergeRuns_of_ne {w : ℕ} {xs : List β} (hxs : xs ≠ []) (hw : w ≠ 0) : mergeRuns le w xs =
    List.merge (xs.take w) ((xs.drop w).take w) le ++ mergeRuns le w (xs.drop (w * 2)) := by
  rw [mergeRuns, if_neg (by tauto)]

theorem mergeRuns_perm (w : ℕ) (xs : List β) : (mergeRuns le w xs).Perm xs := by
  induction xs using mergeRuns.induct w with
  | case1 xs h => rw [mergeRuns, if_pos h]
  | case2 xs h ih =>
    rw [mergeRuns, if_neg h]
    have hpair : (List.merge (xs.take w) ((xs.drop w).take w) le).Perm (xs.take w ++ (xs.drop w).take w) :=
      merge_perm_append le
    have hall := hpair.append ih
    rwa [take_append_take_append_drop] at hall

@[simp] theorem length_mergeRuns (w : ℕ) (xs : List β) : (mergeRuns le w xs).length = xs.length :=
  (mergeRuns_perm le w xs).length_eq

/-- The passes, from runs of `w` elements on. -/
def sortFrom (w : ℕ) (xs : List β) : List β :=
  if w < xs.length ∧ w ≠ 0 then sortFrom (w * 2) (mergeRuns le w xs) else xs
termination_by xs.length - w
decreasing_by
  rw [length_mergeRuns]
  omega

/-- The sort: at first there are runs of one element. -/
def sort (xs : List β) : List β := sortFrom le 1 xs

theorem sortFrom_perm (w : ℕ) (xs : List β) : (sortFrom le w xs).Perm xs := by
  induction w, xs using sortFrom.induct le with
  | case1 w xs h ih =>
    rw [sortFrom, if_pos h]
    exact ih.trans (mergeRuns_perm le w xs)
  | case2 w xs h => rw [sortFrom, if_neg h]

theorem sort_perm (xs : List β) : (sort le xs).Perm xs := sortFrom_perm le 1 xs

/-! ## Order -/

/-- Every run of `w` elements is in order. -/
def InRuns (w : ℕ) (xs : List β) : Prop := ∀ i, ((xs.drop (w * i)).take w).Pairwise (le · ·)

variable {le} {w : ℕ} {xs ys : List β}

theorem inRuns_one (xs : List β) : InRuns le 1 xs := by
  intro i
  cases hrun : (xs.drop (1 * i)).take 1 with
  | nil => exact .nil
  | cons x rest =>
    have hlen : (x :: rest).length ≤ 1 := hrun ▸ length_take_le 1 _
    obtain rfl : rest = [] := eq_nil_of_length_eq_zero (by simpa using hlen)
    exact pairwise_singleton _ x

theorem InRuns.drop (h : InRuns le w xs) (n : ℕ) : InRuns le w (xs.drop (w * n)) := by
  intro i
  rw [drop_drop, ← Nat.mul_add]
  exact h (n + i)

/-- One pass makes runs of twice the length. -/
theorem inRuns_mergeRuns (htrans : ∀ a b c, le a b → le b c → le a c) (htotal : ∀ a b, le a b || le b a)
    (h : InRuns le w xs) : InRuns le (w * 2) (mergeRuns le w xs) := by
  induction xs using mergeRuns.induct w with
  | case1 xs hend =>
    rw [mergeRuns, if_pos hend]
    rcases hend with rfl | rfl
    · intro i
      simp
    · simpa using h
  | case2 xs hmore ih =>
    have hpair : (List.merge (xs.take w) ((xs.drop w).take w) le).Pairwise (le · ·) := by
      refine pairwise_merge htrans htotal _ _ ?_ ?_
      · simpa using h 0
      · simpa using h 1
    have hlen : (List.merge (xs.take w) ((xs.drop w).take w) le).length = min (w * 2) xs.length := by
      simp only [length_merge, length_take, length_drop]
      omega
    rw [mergeRuns, if_neg hmore]
    rcases Nat.lt_or_ge xs.length (w * 2) with hshort | hlong
    · -- there is only one run
      rw [drop_eq_nil_of_le hshort.le, mergeRuns_nil, append_nil]
      intro i
      exact (hpair.drop).take
    · rw [min_eq_left hlong] at hlen
      intro i
      cases i with
      | zero =>
        rw [Nat.mul_zero, drop_zero, take_left' hlen]
        exact hpair
      | succ i =>
        rw [show w * 2 * (i + 1) = w * 2 + w * 2 * i by ring, ← drop_drop, drop_left' hlen]
        exact ih (h.drop 2) i

theorem pairwise_sortFrom (htrans : ∀ a b c, le a b → le b c → le a c) (htotal : ∀ a b, le a b || le b a) (hw : w ≠ 0)
    (h : InRuns le w xs) : (sortFrom le w xs).Pairwise (le · ·) := by
  induction w, xs using sortFrom.induct le with
  | case1 w xs hmore ih =>
    rw [sortFrom, if_pos hmore]
    exact ih (by omega) (inRuns_mergeRuns htrans htotal h)
  | case2 w xs hend =>
    rw [sortFrom, if_neg hend]
    have hone := h 0
    rwa [Nat.mul_zero, drop_zero, take_of_length_le (by omega)] at hone

/-- A sorted list is in order. -/
theorem pairwise_sort (htrans : ∀ a b c, le a b → le b c → le a c) (htotal : ∀ a b, le a b || le b a) (xs : List β) :
    (sort le xs).Pairwise (le · ·) :=
  pairwise_sortFrom htrans htotal one_ne_zero (inRuns_one xs)

/-! ## Equal elements -/

/-- Two elements are equal for the order. -/
def Ties (le : β → β → Bool) (a b : β) : Bool := le a b && le b a

/-- Of elements that are equal, a merge has those of the first list before those of the second. -/
theorem filter_merge (htrans : ∀ a b c, le a b → le b c → le a c) (c : β) (hxs : xs.Pairwise (le · ·)) :
    (List.merge xs ys le).filter (Ties le c) = xs.filter (Ties le c) ++ ys.filter (Ties le c) := by
  induction xs generalizing ys with
  | nil => simp
  | cons x xs ihx =>
    induction ys with
    | nil => simp
    | cons y ys ihy =>
      by_cases hle : le x y
      · rw [cons_merge_cons_pos _ _ _ hle, filter_cons, filter_cons, ihx hxs.of_cons]
        split_ifs <;> rfl
      · rw [cons_merge_cons_neg _ _ _ hle, filter_cons, ihy]
        by_cases hy : Ties le c y
        · -- nothing in the first list is equal to it
          have hnone : (x :: xs).filter (Ties le c) = [] := by
            rw [filter_eq_nil_iff]
            intro a ha htie
            rw [Ties, Bool.and_eq_true] at htie hy
            have hxa : a = x ∨ le x a := by
              rcases mem_cons.mp ha with rfl | ha
              · exact .inl rfl
              · exact .inr (rel_of_pairwise_cons hxs ha)
            have hay : le a y := htrans a c y htie.2 hy.1
            rcases hxa with rfl | hxa
            · exact hle hay
            · exact hle (htrans x a y hxa hay)
          rw [hnone, if_pos hy, filter_cons, if_pos hy]
          rfl
        · rw [if_neg hy, filter_cons (x := y), if_neg hy]

theorem filter_mergeRuns (htrans : ∀ a b c, le a b → le b c → le a c) (c : β) (h : InRuns le w xs) :
    (mergeRuns le w xs).filter (Ties le c) = xs.filter (Ties le c) := by
  induction xs using mergeRuns.induct w with
  | case1 xs hend => rw [mergeRuns, if_pos hend]
  | case2 xs hmore ih =>
    have hfirst : (xs.take w).Pairwise (le · ·) := by simpa using h 0
    rw [mergeRuns, if_neg hmore, filter_append, filter_merge htrans c hfirst, ih (h.drop 2), ← filter_append,
      ← filter_append, take_append_take_append_drop]

theorem filter_sortFrom (htrans : ∀ a b c, le a b → le b c → le a c) (htotal : ∀ a b, le a b || le b a) (c : β)
    (h : InRuns le w xs) : (sortFrom le w xs).filter (Ties le c) = xs.filter (Ties le c) := by
  induction w, xs using sortFrom.induct le with
  | case1 w xs hmore ih =>
    rw [sortFrom, if_pos hmore, ih (inRuns_mergeRuns htrans htotal h), filter_mergeRuns htrans c h]
  | case2 w xs hend => rw [sortFrom, if_neg hend]

/-- Elements that are equal keep their order. -/
theorem filter_sort (htrans : ∀ a b c, le a b → le b c → le a c) (htotal : ∀ a b, le a b || le b a) (c : β)
    (xs : List β) : (sort le xs).filter (Ties le c) = xs.filter (Ties le c) :=
  filter_sortFrom htrans htotal c (inRuns_one xs)

end StableMerge
