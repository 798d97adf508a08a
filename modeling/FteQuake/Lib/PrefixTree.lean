import Mathlib.Data.List.Basic

/-!
# Prefix codes as binary trees

A binary tree with symbols at its leaves, and the codes of the symbols: the turns from the root to
the leaf, `false` for left. `Code t bs s` says that `bs` leads to `s`; `code t s` computes such a
list for a symbol of the tree. A code is shorter than the number of leaves (`Code.length_lt`), and
it is empty only in a tree that is a leaf (`Code.ne_nil`).
-/

/-- A binary tree with symbols at its leaves. -/
inductive PrefixTree (α : Type*)
  | leaf (s : α)
  | node (l r : PrefixTree α)

namespace PrefixTree

variable {α : Type*}

/-- The symbols, from left to right. -/
def leaves : PrefixTree α → List α
  | leaf s => [s]
  | node l r => l.leaves ++ r.leaves

/-- The turns `bs` lead from the root to a leaf with symbol `s`. -/
inductive Code : PrefixTree α → List Bool → α → Prop
  | leaf {s} : Code (leaf s) [] s
  | left {l r bs s} : Code l bs s → Code (node l r) (false :: bs) s
  | right {l r bs s} : Code r bs s → Code (node l r) (true :: bs) s

theorem leaves_length_pos (t : PrefixTree α) : 0 < t.leaves.length := by
  induction t with
  | leaf s => exact Nat.one_pos
  | node l r ihl _ =>
    rw [leaves, List.length_append]
    omega

theorem Code.length_lt {t : PrefixTree α} {bs : List Bool} {s : α} (h : t.Code bs s) :
    bs.length < t.leaves.length := by
  induction h with
  | leaf => exact Nat.one_pos
  | @left l r bs s _ ih =>
    have := r.leaves_length_pos
    rw [leaves, List.length_append, List.length_cons]
    omega
  | @right l r bs s _ ih =>
    have := l.leaves_length_pos
    rw [leaves, List.length_append, List.length_cons]
    omega

theorem Code.ne_nil {l r : PrefixTree α} {bs : List Bool} {s : α} (h : (node l r).Code bs s) :
    bs ≠ [] := by
  cases h <;> simp

variable [DecidableEq α]

/-- The code of a symbol, if it is in the tree. -/
def code? : PrefixTree α → α → Option (List Bool)
  | leaf a, s => if a = s then some [] else none
  | node l r, s =>
    match l.code? s with
    | some bs => some (false :: bs)
    | none => (r.code? s).map (true :: ·)

/-- The code of a symbol of the tree. -/
def code (t : PrefixTree α) (s : α) : List Bool := (t.code? s).getD []

theorem code_of_code? {t : PrefixTree α} {s : α} {bs : List Bool} (h : t.code? s = some bs) :
    t.Code bs s := by
  induction t generalizing bs with
  | leaf a =>
    rw [code?] at h
    split at h
    · rename_i e
      cases h
      exact e ▸ Code.leaf
    · cases h
  | node l r ihl ihr =>
    rw [code?] at h
    split at h
    · rename_i e
      cases h
      exact (ihl e).left
    · obtain ⟨cs, hcs, rfl⟩ := Option.map_eq_some_iff.1 h
      exact (ihr hcs).right

theorem code?_isSome {t : PrefixTree α} {s : α} (h : s ∈ t.leaves) : (t.code? s).isSome := by
  induction t with
  | leaf a =>
    rw [leaves, List.mem_singleton] at h
    rw [code?, if_pos h.symm]
    rfl
  | node l r ihl ihr =>
    rw [code?]
    split
    · rfl
    · rename_i e
      rcases List.mem_append.1 h with h | h
      · have := ihl h
        rw [e] at this
        cases this
      · rw [Option.isSome_map]
        exact ihr h

/-- **A symbol of the tree has a code**, and this is it. -/
theorem code_spec {t : PrefixTree α} {s : α} (h : s ∈ t.leaves) : t.Code (t.code s) s := by
  obtain ⟨bs, hbs⟩ := Option.isSome_iff_exists.1 (code?_isSome h)
  rw [code, hbs]
  exact code_of_code? hbs

end PrefixTree
