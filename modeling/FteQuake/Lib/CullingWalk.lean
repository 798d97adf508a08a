import Mathlib.Order.Lattice

/-!
# Walks that leave items out

A walk over items that have values in a meet semilattice keeps the meet of what it has taken. It may leave out an item
whose value is not below what it has by then: it ends with the meet of all the values (`Culls.eq_foldl`). A loop whose
steps are such walks is one (`Culls.loop`).
-/

namespace CullingWalk

variable {K α β σ : Type*} [SemilatticeInf K] {v : α → K} {k k' k'' : K} {l l' : List α}

/-- A walk goes from one meet to another. -/
inductive Culls (v : α → K) : K → List α → K → Prop
  | nil (k : K) : Culls v k [] k
  | take {k k' : K} {a : α} {l : List α} (h : Culls v (k ⊓ v a) l k') : Culls v k (a :: l) k'
  | skip {k k' : K} {a : α} {l : List α} (hle : k ≤ v a) (h : Culls v k l k') : Culls v k (a :: l) k'

namespace Culls

/-- What is left out does not matter. -/
theorem eq_foldl (h : Culls v k l k') : k' = l.foldl (fun k a => k ⊓ v a) k := by
  induction h with
  | nil => rfl
  | take _ ih => exact ih
  | skip hle _ ih => rw [ih, List.foldl_cons, inf_eq_left.mpr hle]

theorem append (h : Culls v k l k') (h' : Culls v k' l' k'') : Culls v k (l ++ l') k'' := by
  induction h with
  | nil => exact h'
  | take _ ih => exact .take (ih h')
  | skip hle _ ih => exact .skip hle (ih h')

/-- All of the items are left out. -/
theorem skipAll (h : ∀ a ∈ l, k ≤ v a) : Culls v k l k := by
  induction l with
  | nil => exact .nil k
  | cons a l ih => exact .skip (h a (.head _)) (ih fun b hb => h b (.tail _ hb))

theorem le (h : Culls v k l k') : k' ≤ k := by
  induction h with
  | nil => exact le_rfl
  | take _ ih => exact ih.trans inf_le_left
  | skip _ _ ih => exact ih

/-- A bound of what there is at first and of the values. -/
theorem lower {c : K} (h : Culls v k l k') (hk : c ≤ k) (hl : ∀ a ∈ l, c ≤ v a) : c ≤ k' := by
  induction h with
  | nil => exact hk
  | take _ ih => exact ih (le_inf hk (hl _ (.head _))) fun b hb => hl b (.tail _ hb)
  | skip _ _ ih => exact ih hk fun b hb => hl b (.tail _ hb)

/-- A loop whose steps are walks, from the states that an invariant describes. -/
theorem loop {f : σ → β → σ} {key : σ → K} {items : β → List α} {P : σ → Prop} {steps : List β}
    (hstep : ∀ s, P s → ∀ b ∈ steps, Culls v (key s) (items b) (key (f s b)) ∧ P (f s b)) {s : σ} (hs : P s) :
    Culls v (key s) (steps.flatMap items) (key (steps.foldl f s)) ∧ P (steps.foldl f s) := by
  induction steps generalizing s with
  | nil => exact ⟨.nil _, hs⟩
  | cons b steps ih =>
    obtain ⟨hwalk, hs'⟩ := hstep s hs b (.head _)
    obtain ⟨hrest, hend⟩ := ih (fun s hs b hb => hstep s hs b (.tail _ hb)) hs'
    exact ⟨hwalk.append hrest, hend⟩

end Culls

end CullingWalk
