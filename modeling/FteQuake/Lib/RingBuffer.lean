import FteQuake.Lib.Memory
import Mathlib.Data.Nat.ModEq

/-!
# Ring buffers

A ring of `size` cells holds a stretch of an unbounded stream: the cell at position `i` of the stream is at `i % size`.
`unroll` is the ring as that stream, `content` what is between two positions, and `fill` writes behind it.
-/

namespace Ring

variable {β : Type*} {size : ℕ} {buf : Mem β} {first last i : ℕ} {xs : List β}

/-- The cell of every position. -/
def unroll (size : ℕ) (buf : Mem β) : Mem β := fun i => buf (i % size)

/-- What is between two positions. -/
def content (size : ℕ) (buf : Mem β) (first last : ℕ) : List β := (unroll size buf).slice first (last - first)

/-- Write from a position on. -/
def fill (size : ℕ) : Mem β → ℕ → List β → Mem β
  | buf, _, [] => buf
  | buf, i, x :: xs => fill size (buf.store (i % size) x) (i + 1) xs

/-- Going round the ring changes nothing. -/
theorem content_add_size : content size buf (first + size) (last + size) = content size buf first last := by
  unfold content
  rw [Nat.add_sub_add_right]
  refine List.ext_getElem (by simp) fun j _ _ => ?_
  rw [Mem.getElem_slice, Mem.getElem_slice, unroll, unroll, Nat.add_right_comm, Nat.add_mod_right]

/-- A stretch that does not reach round the end lies in one piece. -/
theorem slice_mod {n : ℕ} (h : first % size + n ≤ size) : buf.slice (first % size) n = content size buf first (first + n) := by
  rw [content, Nat.add_sub_cancel_left]
  refine List.ext_getElem (by simp) fun j hj _ => ?_
  rw [Mem.length_slice] at hj
  rw [Mem.getElem_slice, Mem.getElem_slice, unroll, Nat.add_mod, Nat.mod_eq_of_lt (show j < size by omega),
    Nat.mod_eq_of_lt (show first % size + j < size by omega)]

theorem content_append {mid : ℕ} (h : first ≤ mid) (h' : mid ≤ last) :
    content size buf first mid ++ content size buf mid last = content size buf first last := by
  obtain ⟨a, rfl⟩ := Nat.exists_eq_add_of_le h
  obtain ⟨b, rfl⟩ := Nat.exists_eq_add_of_le h'
  rw [content, content, content, Nat.add_assoc, Nat.add_sub_cancel_left, Nat.add_sub_cancel_left, ← Nat.add_assoc,
    Nat.add_sub_cancel_left, ← Mem.slice_add]

/-- What is written in a free cell is not what was there. -/
theorem unroll_store_of_ne {x : β} (h : i < last) (h' : last < i + size) :
    unroll size (buf.store (last % size) x) i = unroll size buf i := by
  refine if_neg fun heq => ?_
  have hdvd : size ∣ last - i := (Nat.modEq_iff_dvd' h.le).mp heq
  exact absurd (Nat.le_of_dvd (by omega) hdvd) (by omega)

theorem content_store {x : β} (h : first ≤ last) (h' : last - first < size) :
    content size (buf.store (last % size) x) first (last + 1) = content size buf first last ++ [x] := by
  rw [← content_append h (Nat.le_add_right last 1), content, content, Nat.add_sub_cancel_left, Mem.slice_one, unroll,
    Mem.store_self]
  congr 1
  exact Mem.slice_congr fun a ha ha' => unroll_store_of_ne (by omega) (by omega)

/-- Writing behind the content appends to it, while there is room. -/
theorem content_fill (h : first ≤ last) (h' : last + xs.length ≤ first + size) :
    content size (fill size buf last xs) first (last + xs.length) = content size buf first last ++ xs := by
  induction xs generalizing buf last with
  | nil => simp [fill]
  | cons x xs ih =>
    rw [List.length_cons] at h' ⊢
    rw [fill, show last + (xs.length + 1) = last + 1 + xs.length by omega, ih (by omega) (by omega),
      content_store h (by omega), List.append_assoc, List.singleton_append]

end Ring
