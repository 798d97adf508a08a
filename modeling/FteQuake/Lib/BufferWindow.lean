import FteQuake.Lib.Memory

/-!
# A window over a buffer

What is left of a stream is kept in a buffer as a window: where it begins, and how many cells it has. `pending` is
the content of the window. Cells are taken from its front, added behind it, and the window can be moved down to the
begin of the buffer.
-/

structure Window (β : Type*) where
  buf : Mem β
  offset : ℕ
  avail : ℕ

namespace Window

variable {β : Type*} (w : Window β)

/-- The cells of the window. -/
def pending : List β := w.buf.slice w.offset w.avail

/-- Take cells from the front. -/
def consume (k : ℕ) : Window β := { w with offset := w.offset + k, avail := w.avail - k }

/-- Move the window down to the begin of the buffer. -/
def compact : Window β := ⟨w.buf.blit 0 w.pending, 0, w.avail⟩

/-- Add cells behind the window. -/
def extend (xs : List β) : Window β :=
  { w with buf := w.buf.blit (w.offset + w.avail) xs, avail := w.avail + xs.length }

@[simp] theorem length_pending : w.pending.length = w.avail := Mem.length_slice _ _ _

theorem pending_consume (k : ℕ) : (w.consume k).pending = w.pending.drop k := (Mem.drop_slice _ _ _ _).symm

@[simp] theorem pending_compact : w.compact.pending = w.pending := by
  have hlen := Mem.slice_blit_self w.buf 0 w.pending
  rwa [length_pending] at hlen

theorem pending_extend (xs : List β) : (w.extend xs).pending = w.pending ++ xs :=
  Mem.slice_blit_append _ _ _ _

theorem pending_of_avail_eq_zero (h : w.avail = 0) : w.pending = [] := by
  rw [← List.length_eq_zero_iff, length_pending, h]

/-- A window over cells that were just stored. -/
theorem pending_blit (m : Mem β) (p : ℕ) (xs : List β) : (Window.mk (m.blit p xs) p xs.length).pending = xs :=
  Mem.slice_blit_self m p xs

end Window
