import Mathlib.Algebra.Order.Group.Nat
import Mathlib.Data.List.Basic

/-!
# Lists of ranges that tile an interval

Blocks have a start `lo` and an end `hi`. `Tiles lo hi a bs z` says that the blocks of `bs` follow each
other without gaps from `a` to `z` and none is empty. Of the blocks, those with `p` are marked: `Marked`
are the places in them, and `total` is their length, which is that of the interval only when every place
is marked (`Tiles.marked_of_total_eq`).
-/

namespace Tiling

variable {β : Type} {lo hi : β → ℕ} {p : β → Prop}

/-- The blocks follow each other from `a` to `z`, and none is empty. -/
def Tiles (lo hi : β → ℕ) : ℕ → List β → ℕ → Prop
  | a, [], z => a = z
  | a, b :: bs, z => lo b = a ∧ a < hi b ∧ Tiles lo hi (hi b) bs z

/-- A place in a marked block. -/
def Marked (lo hi : β → ℕ) (p : β → Prop) (bs : List β) (x : ℕ) : Prop :=
  ∃ b ∈ bs, p b ∧ lo b ≤ x ∧ x < hi b

/-- The length of the marked blocks. -/
def total (lo hi : β → ℕ) (p : β → Prop) [DecidablePred p] : List β → ℕ
  | [] => 0
  | b :: bs => (if p b then hi b - lo b else 0) + total lo hi p bs

variable {a x z : ℕ}

@[simp] theorem tiles_nil : Tiles lo hi a [] z ↔ a = z := Iff.rfl

@[simp] theorem tiles_cons {b : β} {bs : List β} :
    Tiles lo hi a (b :: bs) z ↔ lo b = a ∧ a < hi b ∧ Tiles lo hi (hi b) bs z := Iff.rfl

theorem tiles_append {xs ys : List β} :
    Tiles lo hi a (xs ++ ys) z ↔ ∃ m, Tiles lo hi a xs m ∧ Tiles lo hi m ys z := by
  induction xs generalizing a with
  | nil => simp
  | cons b xs ih => simp [tiles_cons, ih, ← exists_and_left, and_assoc]

theorem Tiles.le {bs : List β} (h : Tiles lo hi a bs z) : a ≤ z := by
  induction bs generalizing a with
  | nil => exact le_of_eq h
  | cons b bs ih => exact h.2.1.le.trans (ih h.2.2)

/-- The blocks of a tiling lie in the interval. -/
theorem Tiles.bounds {bs : List β} (h : Tiles lo hi a bs z) {b : β} (hb : b ∈ bs) :
    a ≤ lo b ∧ lo b < hi b ∧ hi b ≤ z := by
  induction bs generalizing a with
  | nil => cases hb
  | cons c bs ih =>
    obtain ⟨rfl, hlt, hrest⟩ := h
    rcases List.mem_cons.1 hb with rfl | hb
    · exact ⟨le_rfl, hlt, hrest.le⟩
    · obtain ⟨h₁, h₂, h₃⟩ := ih hrest hb
      exact ⟨hlt.le.trans h₁, h₂, h₃⟩

@[simp] theorem marked_nil : ¬ Marked lo hi p [] x := by simp [Marked]

@[simp] theorem marked_cons {b : β} {bs : List β} :
    Marked lo hi p (b :: bs) x ↔ p b ∧ lo b ≤ x ∧ x < hi b ∨ Marked lo hi p bs x := by
  simp [Marked]

theorem marked_append {xs ys : List β} :
    Marked lo hi p (xs ++ ys) x ↔ Marked lo hi p xs x ∨ Marked lo hi p ys x := by
  simp [Marked, or_and_right, exists_or]

theorem Tiles.marked_bounds {bs : List β} (h : Tiles lo hi a bs z) (hx : Marked lo hi p bs x) : a ≤ x ∧ x < z := by
  obtain ⟨b, hb, -, h₁, h₂⟩ := hx
  obtain ⟨h₃, -, h₄⟩ := h.bounds hb
  exact ⟨h₃.trans h₁, h₂.trans_le h₄⟩

variable [DecidablePred p]

@[simp] theorem total_nil : total lo hi p [] = 0 := rfl

@[simp] theorem total_cons {b : β} {bs : List β} :
    total lo hi p (b :: bs) = (if p b then hi b - lo b else 0) + total lo hi p bs := rfl

theorem total_append {xs ys : List β} :
    total lo hi p (xs ++ ys) = total lo hi p xs + total lo hi p ys := by
  induction xs with
  | nil => simp
  | cons b xs ih => rw [List.cons_append, total_cons, total_cons, ih, Nat.add_assoc]

theorem Tiles.total_le {bs : List β} (h : Tiles lo hi a bs z) :
    total lo hi p bs ≤ z - a := by
  induction bs generalizing a with
  | nil => exact Nat.zero_le _
  | cons b bs ih =>
    obtain ⟨rfl, hlt, hrest⟩ := h
    have hle := ih hrest
    have hz := hrest.le
    rw [total_cons]
    split_ifs <;> omega

/-- The marked blocks are as long as the interval only when they are all. -/
theorem Tiles.marked_of_total_eq {bs : List β} (h : Tiles lo hi a bs z)
    (htotal : total lo hi p bs = z - a) (hx : a ≤ x ∧ x < z) : Marked lo hi p bs x := by
  induction bs generalizing a with
  | nil =>
    obtain rfl : a = z := h
    omega
  | cons b bs ih =>
    obtain ⟨rfl, hlt, hrest⟩ := h
    have hle := hrest.total_le (p := p)
    have hz := hrest.le
    rw [total_cons] at htotal
    by_cases hb : p b
    · rw [if_pos hb] at htotal
      by_cases hxb : x < hi b
      · exact marked_cons.2 (.inl ⟨hb, hx.1, hxb⟩)
      · exact marked_cons.2 (.inr (ih hrest (by omega) ⟨not_lt.1 hxb, hx.2⟩))
    · rw [if_neg hb] at htotal
      omega

/-- Every block is marked. -/
theorem Tiles.marked_of_forall {bs : List β} (h : Tiles lo hi a bs z)
    (hall : ∀ b ∈ bs, p b) (hx : a ≤ x ∧ x < z) : Marked lo hi p bs x := by
  refine h.marked_of_total_eq ?_ hx
  clear hx
  induction bs generalizing a with
  | nil =>
    obtain rfl : a = z := h
    simp
  | cons b bs ih =>
    obtain ⟨rfl, hlt, hrest⟩ := h
    have hz := hrest.le
    rw [total_cons, if_pos (hall b List.mem_cons_self), ih hrest fun c hc => hall c (List.mem_cons_of_mem b hc)]
    omega

end Tiling
