import FteQuake.Lib.Memory
import Mathlib.Order.Nat

/-!
# Walks over packets

A walk over a packet is a function that also returns what it accesses, and whether it came to an end. `Stays` says that
it ends and that a predicate holds of all that it accesses; it goes through the ways in which walks are put together.

The numbers of a packet are in network order, and its parts are often padded to a multiple of four bytes.
-/

/-! ## Packets -/

namespace Mem

/-- Two bytes in network order. -/
def bigShort (m : Mem (BitVec 8)) (p : ℕ) : BitVec 16 := m p ++ m (p + 1)

/-- Four bytes in network order. -/
def bigLong (m : Mem (BitVec 8)) (p : ℕ) : BitVec 32 := m.bigShort p ++ m.bigShort (p + 2)

/-- The memory of a packet. -/
def ofPacket (bytes : List (BitVec 8)) : Mem (BitVec 8) := fun p => bytes.getD p 0

end Mem

/-- `(n+3)&~3`. -/
def pad4 (n : ℕ) : ℕ := (n + 3) / 4 * 4

/-- A read: its first cell and the number of cells. -/
abbrev Read := ℕ × ℕ

namespace Read

/-- A read ends before `stop`. A read of no cells always does. -/
def Within (stop : ℕ) (r : Read) : Prop := r.2 = 0 ∨ r.1 + r.2 ≤ stop

instance (stop : ℕ) (r : Read) : Decidable (Within stop r) := inferInstanceAs (Decidable (_ ∨ _))

theorem within_of_pos {stop p n : ℕ} (hn : 0 < n) : Within stop (p, n) ↔ p + n ≤ stop :=
  or_iff_right hn.ne'

end Read

/-! ## Walks -/

/-- What a walk returns: what it accesses, and whether it came to an end. -/
structure Walked (α : Type*) where
  accesses : List α
  finished : Bool

namespace Walked

variable {α : Type*} {P : α → Prop} {as : List α} {w w' : Walked α}

/-- A walk that ends at once. -/
def done (as : List α) : Walked α := ⟨as, true⟩

/-- A walk that has not come to an end. -/
def endless : Walked α := ⟨[], false⟩

/-- What is accessed before a walk. -/
def before (as : List α) (w : Walked α) : Walked α := ⟨as ++ w.accesses, w.finished⟩

/-- A walk, and another behind its end. -/
def andThen (w w' : Walked α) : Walked α := if w.finished then before w.accesses w' else w

/-- A walk ends, and all that it accesses is `P`. -/
def Stays (P : α → Prop) (w : Walked α) : Prop := w.finished ∧ ∀ a ∈ w.accesses, P a

@[simp] theorem stays_done : (done as).Stays P ↔ ∀ a ∈ as, P a := by simp [Stays, done]

@[simp] theorem not_stays_endless : ¬ (endless : Walked α).Stays P := by simp [Stays, endless]

@[simp] theorem stays_before : (before as w).Stays P ↔ (∀ a ∈ as, P a) ∧ w.Stays P := by
  simp only [Stays, before, List.mem_append, or_imp, forall_and]
  exact and_left_comm

@[simp] theorem stays_andThen : (w.andThen w').Stays P ↔ w.Stays P ∧ w'.Stays P := by
  unfold andThen
  split_ifs with h
  · rw [stays_before]
    simp [Stays, h]
  · simp [Stays, h]

end Walked
