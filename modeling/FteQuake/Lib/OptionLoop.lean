import Mathlib.Data.List.Basic
import Mathlib.Data.Nat.Init
import Mathlib.Order.Lattice

/-!
# Loops over lists that may fail

Rules for `List.foldlM` in `Option`: what a relation says of each step it says of the loop, and what an element has
established stays (`run`, and `rule`, `rule_forall` where the steps have no invariant); a loop whose steps end ends
(`total`); a loop with better steps goes as far (`mono`).
-/

namespace OptionLoop

variable {α β : Type*} {f g : β → α → Option β} {l : List α} {b b' : β} {R : β → β → Prop} {P : β → Prop}
  {Q : α → β → Prop}

theorem foldlM_cons_some {a : α} (h : (a :: l).foldlM f b = some b') :
    ∃ c, f b a = some c ∧ l.foldlM f c = some b' := by
  rw [List.foldlM_cons] at h
  exact Option.bind_eq_some_iff.mp h

/-- An invariant holds at the end of a loop, a relation holds over it, and what a step establishes for its element
holds too. -/
theorem run (hrefl : ∀ b, R b b) (htrans : ∀ {b c d : β}, R b c → R c d → R b d)
    (hkeep : ∀ {a : α} {b c : β}, P b → R b c → Q a b → Q a c)
    (hstep : ∀ b, P b → ∀ a ∈ l, ∀ b', f b a = some b' → P b' ∧ R b b' ∧ Q a b') (hb : P b)
    (h : l.foldlM f b = some b') : P b' ∧ R b b' ∧ ∀ a ∈ l, Q a b' := by
  induction l generalizing b with
  | nil =>
    cases h
    exact ⟨hb, hrefl _, nofun⟩
  | cons a l ih =>
    obtain ⟨c, hc, hrest⟩ := foldlM_cons_some h
    obtain ⟨hP, hR, hQ⟩ := hstep b hb a (.head _) c hc
    obtain ⟨hP', hR', hQ'⟩ := ih (fun b hb a ha => hstep b hb a (.tail _ ha)) hP hrest
    exact ⟨hP', htrans hR hR', List.forall_mem_cons.mpr ⟨hkeep hP hR' hQ, hQ'⟩⟩

/-- A relation that holds over every step holds over the loop. -/
theorem rule (hrefl : ∀ b, R b b) (htrans : ∀ {b c d : β}, R b c → R c d → R b d)
    (hstep : ∀ b, ∀ a ∈ l, ∀ b', f b a = some b' → R b b') (h : l.foldlM f b = some b') : R b b' :=
  (run (P := fun _ => True) (Q := fun _ _ => True) hrefl htrans (fun _ _ => id)
    (fun b _ a ha b' hb => ⟨trivial, hstep b a ha b' hb, trivial⟩) trivial h).2.1

/-- What a step establishes for its element holds at the end of the loop, if steps keep it. -/
theorem rule_forall (hrefl : ∀ b, R b b) (htrans : ∀ {b c d : β}, R b c → R c d → R b d)
    (hkeep : ∀ {a : α} {b c : β}, R b c → Q a b → Q a c)
    (hstep : ∀ b, ∀ a ∈ l, ∀ b', f b a = some b' → R b b' ∧ Q a b') (h : l.foldlM f b = some b') :
    ∀ a ∈ l, Q a b' :=
  (run (P := fun _ => True) (Q := Q) hrefl htrans (fun _ => hkeep)
    (fun b _ a ha b' hb => ⟨trivial, hstep b a ha b' hb⟩) trivial h).2.2

/-- A loop ends if every step does from the states that an invariant describes. -/
theorem total (hstep : ∀ b, P b → ∀ a ∈ l, ∃ b', f b a = some b' ∧ P b') (hb : P b) :
    ∃ b', l.foldlM f b = some b' ∧ P b' := by
  induction l generalizing b with
  | nil => exact ⟨b, rfl, hb⟩
  | cons a l ih =>
    obtain ⟨c, hc, hP⟩ := hstep b hb a (.head _)
    obtain ⟨b', hrest, hP'⟩ := ih (fun b hb a ha => hstep b hb a (.tail _ ha)) hP
    refine ⟨b', ?_, hP'⟩
    rw [List.foldlM_cons, hc]
    exact hrest

theorem mono (hfg : ∀ b a c, f b a = some c → g b a = some c) (h : l.foldlM f b = some b') :
    l.foldlM g b = some b' := by
  induction l generalizing b with
  | nil => exact h
  | cons a l ih =>
    obtain ⟨c, hc, hrest⟩ := foldlM_cons_some h
    rw [List.foldlM_cons, hfg b a c hc]
    exact ih hrest

/-- As `total`, for steps that end with fuel enough each. -/
theorem total_fuel {f : ℕ → β → α → Option β} (hmono : ∀ n b a c, f n b a = some c → f (n + 1) b a = some c)
    (hstep : ∀ b, P b → ∀ a ∈ l, ∃ n b', f n b a = some b' ∧ P b') (hb : P b) :
    ∃ n b', l.foldlM (f n) b = some b' ∧ P b' := by
  have hmore {m n : ℕ} (hmn : m ≤ n) (b : β) (a : α) (c : β) (h : f m b a = some c) : f n b a = some c := by
    induction n, hmn using Nat.le_induction with
    | base => exact h
    | succ n _ ih => exact hmono n b a c ih
  induction l generalizing b with
  | nil => exact ⟨0, b, rfl, hb⟩
  | cons a l ih =>
    obtain ⟨m, c, hc, hP⟩ := hstep b hb a (.head _)
    obtain ⟨n, b', hrest, hP'⟩ := ih (fun b hb a ha => hstep b hb a (.tail _ ha)) hP
    refine ⟨max m n, b', ?_, hP'⟩
    rw [List.foldlM_cons, hmore (le_max_left m n) b a c hc]
    exact mono (fun b a c => hmore (le_max_right m n) b a c) hrest

end OptionLoop
