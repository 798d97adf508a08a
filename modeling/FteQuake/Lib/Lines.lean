import Mathlib.Data.List.Basic
import Mathlib.Data.List.Flatten

/-!
# The lines of a text

A line is a text with its end behind it. `lines` are those of a text, without what is behind the last end, and `dropLines`
drops some at its front. A text is often all of the lines from one on, or a part of these that was cut off somewhere:
`lines_of_begin`.
-/

namespace Lines

open List

variable {α : Type*} [DecidableEq α] (nl : α)

/-- A text with its end behind it. -/
def IsLine (l : List α) : Prop := ∃ t, nl ∉ t ∧ l = t ++ [nl]

/-- The first line of a text, and what is behind it. -/
def takeLine : List α → Option (List α × List α)
  | [] => none
  | c :: s => if c = nl then some ([c], s) else (takeLine s).map fun r => (c :: r.1, r.2)

/-- The lines of a text, without what is behind the last one. -/
def lines : List α → List (List α)
  | [] => []
  | c :: s =>
    if c = nl then [c] :: lines s
    else match lines s with
      | [] => []
      | l :: ls => (c :: l) :: ls

/-- Lines are dropped at the front, as far as there are some. -/
def dropLines : ℕ → List α → List α
  | 0, s => s
  | n + 1, s =>
    match takeLine nl s with
    | some r => dropLines n r.2
    | none => s

variable {nl} {l s : List α} {L : List (List α)} {n : ℕ}

/-! ## One line -/

theorem takeLine_append (hl : IsLine nl l) (s : List α) : takeLine nl (l ++ s) = some (l, s) := by
  obtain ⟨t, ht, rfl⟩ := hl
  induction t with
  | nil => simp [takeLine]
  | cons c t ih =>
    rw [mem_cons, not_or] at ht
    rw [cons_append, cons_append, takeLine, if_neg (Ne.symm ht.1), ih ht.2]
    rfl

theorem lines_append (hl : IsLine nl l) (s : List α) : lines nl (l ++ s) = l :: lines nl s := by
  obtain ⟨t, ht, rfl⟩ := hl
  induction t with
  | nil => simp [lines]
  | cons c t ih =>
    rw [mem_cons, not_or] at ht
    rw [cons_append, cons_append, lines, if_neg (Ne.symm ht.1), ih ht.2]

theorem lines_of_notMem (h : nl ∉ s) : lines nl s = [] := by
  induction s with
  | nil => rfl
  | cons c s ih =>
    rw [mem_cons, not_or] at h
    rw [lines, if_neg (Ne.symm h.1), ih h.2]

theorem isLine_of_mem_lines (h : l ∈ lines nl s) : IsLine nl l := by
  induction s generalizing l with
  | nil => cases h
  | cons c s ih =>
    rw [lines] at h
    split_ifs at h with hc
    · rcases mem_cons.mp h with rfl | h
      · exact ⟨[], nofun, by rw [hc]; rfl⟩
      · exact ih h
    · cases hs : lines nl s with
      | nil => simp [hs] at h
      | cons l' ls =>
        simp only [hs, mem_cons] at h ih
        rcases h with rfl | h
        · obtain ⟨t, ht, rfl⟩ := ih (.inl rfl)
          refine ⟨c :: t, ?_, rfl⟩
          rw [mem_cons, not_or]
          exact ⟨fun h => hc h.symm, ht⟩
        · exact ih (.inr h)

/-- A text that ends with a line is the lines in it. -/
theorem flatten_lines_append (t : List α) : (lines nl (t ++ [nl])).flatten = t ++ [nl] := by
  induction t with
  | nil => simp [lines]
  | cons c t ih =>
    rw [cons_append, lines]
    split_ifs with hc
    · rw [flatten_cons, ih, singleton_append]
    · cases hs : lines nl (t ++ [nl]) with
      | nil => rw [hs] at ih; simp at ih
      | cons l ls =>
        rw [hs, flatten_cons] at ih
        rw [flatten_cons, cons_append, ih]

/-! ## Many lines -/

theorem lines_flatten_append (hL : ∀ l ∈ L, IsLine nl l) (s : List α) : lines nl (L.flatten ++ s) = L ++ lines nl s := by
  induction L with
  | nil => rfl
  | cons l L ih =>
    rw [flatten_cons, append_assoc, lines_append (hL l mem_cons_self), ih fun l hl => hL l (.tail _ hl)]
    rfl

theorem lines_flatten (hL : ∀ l ∈ L, IsLine nl l) : lines nl L.flatten = L := by
  simpa [lines] using lines_flatten_append hL []

theorem dropLines_flatten (hL : ∀ l ∈ L, IsLine nl l) (hn : n ≤ L.length) :
    dropLines nl n L.flatten = (L.drop n).flatten := by
  induction n generalizing L with
  | zero => rfl
  | succ n ih =>
    cases L with
    | nil => simp at hn
    | cons l L =>
      rw [flatten_cons, dropLines, takeLine_append (hL l mem_cons_self)]
      exact ih (fun l hl => hL l (.tail _ hl)) (Nat.le_of_succ_le_succ hn)

/-- What is cut off behind some place has the first lines. -/
theorem lines_of_begin (hL : ∀ l ∈ L, IsLine nl l) (hs : s <+: L.flatten) : lines nl s <+: L := by
  induction L generalizing s with
  | nil =>
    rw [flatten_nil, prefix_nil] at hs
    rw [hs]
    exact prefix_rfl
  | cons l L ih =>
    rw [flatten_cons] at hs
    have hl := hL l (.head _)
    rcases Nat.lt_or_ge s.length l.length with hlen | hlen
    · have hpart : s <+: l := prefix_of_prefix_length_le hs (prefix_append l L.flatten) (Nat.le_of_lt hlen)
      obtain ⟨t, ht, rfl⟩ := hl
      have hbefore : s <+: t := by
        refine prefix_of_prefix_length_le hpart (prefix_append t [nl]) ?_
        rw [length_append, length_singleton] at hlen
        omega
      rw [lines_of_notMem fun h => ht (hbefore.subset h)]
      exact nil_prefix
    · -- the whole line is in the text
      have hfirst : l <+: s := prefix_of_prefix_length_le (prefix_append l L.flatten) hs hlen
      obtain ⟨t, rfl⟩ := hfirst
      have ht := ih (fun l hl => hL l (.tail _ hl)) ((prefix_append_right_inj l).mp hs)
      rw [lines_append hl]
      exact cons_prefix_cons.mpr ⟨rfl, ht⟩

end Lines
