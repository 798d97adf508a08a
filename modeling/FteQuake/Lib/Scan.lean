import Mathlib.Data.Nat.Init
import Mathlib.Tactic.Common

/-!
# Scans

A scan looks at one position after the other, up to a limit: at each it stops, or goes on with a new
state behind the position, or some positions further. What holds of the state at every position holds
where the scan ends (`run_end`), and two scans that go the same way end at the same position
(`run_congr`).
-/

namespace Scan

variable {σ τ : Type*}

/-- The position where a scan ends that is at `i`, in at most `n` steps. A step says how many positions it
leaves out. -/
def run (step : σ → ℕ → Option (σ × ℕ)) (limit : ℕ) : (n i : ℕ) → σ → ℕ
  | 0, i, _ => i
  | n + 1, i, s =>
    if i < limit then
      match step s i with
      | some r => run step limit n (i + 1 + r.2) r.1
      | none => i
    else i

variable {step : σ → ℕ → Option (σ × ℕ)} {step' : τ → ℕ → Option (τ × ℕ)} {limit n i : ℕ} {s : σ} {t : τ}

theorem run_of_le (h : limit ≤ i) : run step limit n i s = i := by
  cases n with
  | zero => rfl
  | succ n => rw [run, if_neg (Nat.not_lt.mpr h)]

theorem run_stop (h : step s i = none) : run step limit n i s = i := by
  cases n with
  | zero => rfl
  | succ n =>
    rw [run, h]
    exact ite_self i

theorem run_step {r : σ × ℕ} (hi : i < limit) (h : step s i = some r) :
    run step limit (n + 1) i s = run step limit n (i + 1 + r.2) r.1 := by
  rw [run, if_pos hi, h]

/-- What every step keeps holds at the end, which is at the limit or at a stop. -/
theorem run_end {P : ℕ → σ → Prop} (hstep : ∀ i s, i < limit → P i s → ∀ r ∈ step s i, P (i + 1 + r.2) r.1)
    (hn : limit ≤ i + n) (h : P i s) :
    ∃ t, P (run step limit n i s) t ∧ (limit ≤ run step limit n i s ∨ step t (run step limit n i s) = none) := by
  induction n generalizing i s with
  | zero => exact ⟨s, h, .inl hn⟩
  | succ n ih =>
    rcases Nat.lt_or_ge i limit with hi | hi
    · cases hs : step s i with
      | none =>
        rw [run_stop hs]
        exact ⟨s, h, .inr hs⟩
      | some r =>
        rw [run_step hi hs]
        exact ih (by omega) (hstep i s hi h r hs)
    · rw [run_of_le hi]
      exact ⟨s, h, .inl hi⟩

/-- A scan that leaves no position out ends at the limit at the latest. -/
theorem run_le (hstep : ∀ s i, ∀ r ∈ step s i, r.2 = 0) (hi : i ≤ limit) : run step limit n i s ≤ limit := by
  induction n generalizing i s with
  | zero => exact hi
  | succ n ih =>
    rcases Nat.lt_or_eq_of_le hi with hlt | rfl
    · cases hs : step s i with
      | none => rwa [run_stop hs]
      | some r =>
        rw [run_step hlt hs, hstep s i r hs]
        exact ih hlt
    · exact Nat.le_of_eq (run_of_le (Nat.le_refl _))

/-- Scans that go the same way from states in a relation end at the same position. -/
theorem run_congr {R : ℕ → σ → τ → Prop}
    (hstep : ∀ i s t, i < limit → R i s t → (step s i = none ∧ step' t i = none) ∨
      ∃ s' t' k, step s i = some (s', k) ∧ step' t i = some (t', k) ∧ R (i + 1 + k) s' t')
    (h : R i s t) : run step limit n i s = run step' limit n i t := by
  induction n generalizing i s t with
  | zero => rfl
  | succ n ih =>
    rcases Nat.lt_or_ge i limit with hi | hi
    · rcases hstep i s t hi h with ⟨hs, ht⟩ | ⟨s', t', k, hs, ht, hR⟩
      · rw [run_stop hs, run_stop ht]
      · rw [run_step hi hs, run_step hi ht]
        exact ih hR
    · rw [run_of_le hi, run_of_le hi]

end Scan
