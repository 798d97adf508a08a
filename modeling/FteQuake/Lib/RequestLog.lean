import Mathlib.Order.Basic

/-!
# Programs that fill a log

A program asks for a place in a log, over and over, and stores there or leaves the place; what it
does next may depend on whether there was a place. Of the log it knows nothing more, so the same
program runs on any: `entries` is what it stores where there is always a place, and `run` runs it on
a log that may refuse a place, and may fail at a store.

A log that is ready for a store whenever it grants a place never fails (`run_invariant`). One that
grants every place, and has room for so many stores, fails exactly where there are more
(`run_cases`).
-/

/-- A program that asks for places in a log. -/
inductive Logger (α : Type*)
  | done (a : α)
  | ask (stores : Bool) (next : Bool → Logger α)

/-- A log with states `σ`: what it says when it is asked for a place, and what a store does. -/
structure RequestLog (σ : Type*) where
  place : σ → Bool × σ
  store : σ → Option σ

namespace Logger

variable {α β σ : Type*}

/-- One program after the other. -/
def bind : Logger α → (α → Logger β) → Logger β
  | done a, f => f a
  | ask stores next, f => ask stores fun ok => (next ok).bind f

/-- One program after the other, unless the first fails. -/
def andThen (p : Logger (Option α)) (f : α → Logger (Option β)) : Logger (Option β) :=
  p.bind fun r => r.elim (done none) f

/-- What a program stores where there is always a place. -/
def entries : Logger α → ℕ
  | done _ => 0
  | ask stores next => (if stores then 1 else 0) + (next true).entries

/-- A program on a log. -/
def run (L : RequestLog σ) : Logger α → σ → Option (α × σ)
  | done a, s => some (a, s)
  | ask stores next, s =>
    if (L.place s).1 ∧ stores then (L.store (L.place s).2).bind ((next true).run L)
    else (next (L.place s).1).run L (L.place s).2

/-- A log that is ready for a store whenever it grants a place. -/
structure Ready (L : RequestLog σ) (I ready : σ → Prop) : Prop where
  place (s : σ) (h : I s) : I (L.place s).2 ∧ ((L.place s).1 = true → ready (L.place s).2)
  store (s : σ) (h : I s) (h' : ready s) : ∃ t, L.store s = some t ∧ I t

/-- It never fails, and keeps its invariant. -/
theorem run_invariant {L : RequestLog σ} {I ready : σ → Prop} (hL : Ready L I ready) (p : Logger α) {s : σ}
    (h : I s) : ∃ a t, p.run L s = some (a, t) ∧ I t := by
  induction p generalizing s with
  | done a => exact ⟨a, s, rfl, h⟩
  | ask stores next ih =>
    obtain ⟨hplace, hready⟩ := hL.place s h
    rw [run]
    split
    · rename_i hstore
      obtain ⟨t, ht, hI⟩ := hL.store _ hplace (hready hstore.1)
      rw [ht, Option.bind_some]
      exact ih true hI
    · exact ih _ hplace

/-- A log that grants every place, with room for so many stores. -/
structure Grants (L : RequestLog σ) (I : σ → Prop) (room : σ → ℕ) : Prop where
  place (s : σ) (h : I s) : L.place s = (true, s)
  store (s : σ) (n : ℕ) (h : I s) (hroom : room s = n + 1) : ∃ t, L.store s = some t ∧ I t ∧ room t = n
  full (s : σ) (h : I s) (hroom : room s = 0) : L.store s = none

/-- It fails exactly where there are more entries than room. -/
theorem run_cases {L : RequestLog σ} {I : σ → Prop} {room : σ → ℕ} (hL : Grants L I room) (p : Logger α)
    {s : σ} (h : I s) : (p.entries ≤ room s ∧ ∃ a t, p.run L s = some (a, t) ∧ I t) ∨
      (room s < p.entries ∧ p.run L s = none) := by
  induction p generalizing s with
  | done a => exact .inl ⟨Nat.zero_le _, a, s, rfl, h⟩
  | ask stores next ih =>
    rw [run, entries, hL.place s h]
    cases stores with
    | false =>
      have hnone : ¬((true, s).1 = true ∧ false = true) := fun hstores => Bool.false_ne_true hstores.2
      rw [if_neg Bool.false_ne_true, if_neg hnone, Nat.zero_add]
      exact ih true h
    | true =>
      have hstores : (true, s).1 = true ∧ true = true := ⟨rfl, rfl⟩
      rw [if_pos rfl, if_pos hstores]
      cases hroom : room s with
      | zero =>
        rw [hL.full s h hroom, Option.bind_none]
        exact .inr ⟨by omega, rfl⟩
      | succ n =>
        obtain ⟨t, ht, hI, htroom⟩ := hL.store s n h hroom
        rw [ht, Option.bind_some, Nat.add_comm 1, Nat.add_le_add_iff_right, Nat.add_lt_add_iff_right, ← htroom]
        exact ih true hI

end Logger
