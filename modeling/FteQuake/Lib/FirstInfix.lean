import Mathlib.Data.List.Infix
import Mathlib.Data.List.DropRight

/-!
# The first occurrence of a word, and blanks around a text

`splitFirst p s` splits `s` around the first place where `p` occurs in it. A place inside a front part
of the text is found there (`splitFirst_append_left`), and behind a front part that ends in a
character outside the word nothing is found too early (`splitFirst_append_self`).

`trim` leaves the blanks at both ends away. It keeps the other characters, so texts that are the same
up to blanks have as many of them (`countP_trim`).
-/

namespace FirstInfix

open List Option

variable {α : Type*}

/-! ## Occurrences -/

section Split

variable [DecidableEq α]

/-- The text in front of the first occurrence of a word, and the text behind it. -/
def splitFirst (p : List α) : List α → Option (List α × List α)
  | [] => if p = [] then some ([], []) else none
  | c :: s =>
    if p <+: c :: s then some ([], (c :: s).drop p.length)
    else (splitFirst p s).map fun r => (c :: r.1, r.2)

variable {p s u v a b : List α}

theorem splitFirst_eq_append (h : splitFirst p s = some (a, b)) : s = a ++ (p ++ b) := by
  induction s generalizing a with
  | nil =>
    obtain ⟨hp, h⟩ := ite_none_right_eq_some.1 h
    cases h
    rw [hp]
    rfl
  | cons c s ih =>
    rw [splitFirst] at h
    split at h
    · next hp =>
      cases h
      exact prefix_append_drop hp
    · obtain ⟨r, hr, h⟩ := map_eq_some_iff.1 h
      cases h
      rw [cons_append, ← ih hr]

theorem splitFirst_of_begins (h : p <+: s) : splitFirst p s = some ([], s.drop p.length) := by
  cases s with
  | nil =>
    rw [prefix_nil.1 h]
    rfl
  | cons c s => exact if_pos h

theorem splitFirst_isSome_iff : (splitFirst p s).isSome ↔ p <:+: s := by
  constructor
  · intro h
    obtain ⟨⟨a, b⟩, h⟩ := isSome_iff_exists.1 h
    rw [splitFirst_eq_append h]
    exact ⟨a, b, append_assoc a p b⟩
  · intro h
    induction s with
    | nil =>
      rw [infix_nil.1 h]
      rfl
    | cons c s ih =>
      by_cases hp : p <+: c :: s
      · rw [splitFirst_of_begins hp]
        rfl
      · rw [splitFirst, if_neg hp, isSome_map]
        exact ih ((infix_cons_iff.1 h).resolve_left hp)

/-- An occurrence in the front part of a text. -/
theorem splitFirst_append_left (h : splitFirst p s = some (a, b)) (v : List α) :
    splitFirst p (s ++ v) = some (a, b ++ v) := by
  induction s generalizing a with
  | nil =>
    obtain ⟨hp, h⟩ := ite_none_right_eq_some.1 h
    cases h
    rw [hp, nil_append, splitFirst_of_begins nil_prefix]
    rfl
  | cons c s ih =>
    by_cases hp : p <+: c :: s
    · rw [splitFirst_of_begins hp] at h
      cases h
      rw [splitFirst_of_begins (hp.trans (prefix_append _ _)), drop_append_of_le_length hp.length_le]
    · rw [splitFirst, if_neg hp] at h
      obtain ⟨r, hr, h⟩ := map_eq_some_iff.1 h
      cases h
      -- the word occurs further on, so it is too short to reach behind the front part from here
      have hlen : p.length ≤ (c :: s).length := by
        have := congrArg List.length (splitFirst_eq_append hr)
        simp only [length_append, length_cons] at this ⊢
        omega
      have hp' : ¬p <+: c :: (s ++ v) := fun hlong =>
        hp (prefix_of_prefix_length_le hlong (prefix_append (c :: s) v) hlen)
      rw [cons_append, splitFirst, if_neg hp', ih hr]
      rfl

omit [DecidableEq α] in
/-- A word does not reach behind a text whose last character is not in it. -/
theorem prefix_append_iff (hu : ∀ c ∈ u.getLast?, c ∉ p) (hne : u ≠ []) : p <+: u ++ v ↔ p <+: u := by
  refine ⟨fun h => ?_, fun h => h.trans (prefix_append u v)⟩
  rcases prefix_or_prefix_of_prefix h (prefix_append u v) with h | h
  · exact h
  · have hlast := getLast?_eq_some_getLast hne
    exact absurd (h.subset (getLast_mem hne)) (hu _ hlast)

/-- The first occurrence behind a front part without one. -/
theorem splitFirst_append_self (hu : ∀ c ∈ u.getLast?, c ∉ p) (hinside : ¬p <:+: u) (v : List α) :
    splitFirst p (u ++ (p ++ v)) = some (u, v) := by
  induction u with
  | nil =>
    rw [nil_append, splitFirst_of_begins (prefix_append p v), drop_left]
  | cons c u ih =>
    have hp : ¬p <+: c :: (u ++ (p ++ v)) := by
      intro h
      rw [← cons_append, prefix_append_iff hu (cons_ne_nil c u)] at h
      exact hinside h.isInfix
    have hu' : ∀ d ∈ u.getLast?, d ∉ p := by
      intro d hd
      refine hu d ?_
      rw [getLast?_cons, mem_def.1 hd]
      rfl
    rw [cons_append, splitFirst, if_neg hp, ih hu' fun h => hinside (infix_cons h)]
    rfl

end Split

/-! ## Blanks -/

section Trim

variable {blank : α → Bool} {s u v : List α} {c : α}

/-- A text without the blanks around it. -/
def trim (blank : α → Bool) (s : List α) : List α := (s.dropWhile blank).rdropWhile blank

theorem rdropWhile_append_of_pos (h : ∀ c ∈ v, blank c) : (u ++ v).rdropWhile blank = u.rdropWhile blank := by
  induction v using List.reverseRecOn with
  | nil => rw [append_nil]
  | append_singleton v c ih =>
    rw [← append_assoc, rdropWhile_concat_pos _ _ _ (h c (by simp))]
    exact ih fun d hd => h d (by simp [hd])

theorem rdropWhile_append_of_neg (hu : ∃ c ∈ u.getLast?, ¬blank c) :
    (u ++ v).rdropWhile blank = u ++ v.rdropWhile blank := by
  induction v using List.reverseRecOn with
  | nil =>
    obtain ⟨c, hc, hblank⟩ := hu
    obtain ⟨w, rfl⟩ := getLast?_eq_some_iff.1 hc
    rw [append_nil, rdropWhile_nil, append_nil, rdropWhile_concat_neg _ _ _ hblank]
  | append_singleton v c ih =>
    rw [← append_assoc]
    by_cases hc : blank c
    · rw [rdropWhile_concat_pos _ _ _ hc, rdropWhile_concat_pos _ _ _ hc, ih]
    · rw [rdropWhile_concat_neg _ _ _ hc, rdropWhile_concat_neg _ _ _ hc, append_assoc]

theorem trim_dropWhile : trim blank (s.dropWhile blank) = trim blank s := by
  rw [trim, dropWhile_idempotent, trim]

theorem trim_append_left (h : ∀ c ∈ u, blank c) : trim blank (u ++ s) = trim blank s := by
  rw [trim, dropWhile_append_of_pos h, trim]

theorem trim_append_right (h : ∀ c ∈ v, blank c) : trim blank (s ++ v) = trim blank s := by
  rw [trim, trim, dropWhile_append]
  split
  · next hs =>
    rw [isEmpty_iff.1 hs, dropWhile_eq_nil_iff.2 h]
  · exact rdropWhile_append_of_pos h

/-- What is left away at both ends. -/
theorem exists_eq_trim (blank : α → Bool) (s : List α) :
    ∃ a b, (∀ c ∈ a, blank c) ∧ (∀ c ∈ b, blank c) ∧ s = a ++ (trim blank s ++ b) := by
  refine ⟨s.takeWhile blank, (s.dropWhile blank).rtakeWhile blank, ?_, ?_, ?_⟩
  · exact fun c hc => mem_takeWhile_imp hc
  · exact fun c hc => mem_rtakeWhile_imp hc
  · rw [trim, rdropWhile_append_rtakeWhile, takeWhile_append_dropWhile]

theorem countP_trim (blank : α → Bool) (s : List α) :
    (trim blank s).countP (fun c => !blank c) = s.countP fun c => !blank c := by
  obtain ⟨a, b, ha, hb, hs⟩ := exists_eq_trim blank s
  have hzero {l : List α} (hl : ∀ c ∈ l, blank c) : l.countP (fun c => !blank c) = 0 :=
    countP_eq_zero.2 fun c hc => by simp [hl c hc]
  conv_rhs => rw [hs, countP_append, countP_append, hzero ha, hzero hb]
  rw [Nat.zero_add, Nat.add_zero]

/-- The last character of a text without its blanks is none. -/
theorem not_blank_getLast_trim (h : (trim blank s).getLast? = some c) : ¬blank c := by
  have hne : trim blank s ≠ [] := by
    rintro hnil
    rw [hnil] at h
    cases h
  rw [getLast?_eq_some_getLast hne] at h
  cases h
  exact rdropWhile_last_not blank _ hne

end Trim

end FirstInfix
