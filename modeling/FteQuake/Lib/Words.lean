import FteQuake.Lib.Memory
import Mathlib.Data.BitVec

/-!
# Words in a byte memory

A word is four bytes, the low one first, read and written as a natural number. A word that was
written is read back when it fits, and a word that lies apart from the bytes that were written is as
it was.
-/

namespace Mem

variable {β : Type*}

/-! ## Filling -/

/-- Overwrite `n` cells with one value. -/
def fill (m : Mem β) (p n : ℕ) (x : β) : Mem β := fun a => if p ≤ a ∧ a < p + n then x else m a

theorem fill_apply_of_out (m : Mem β) {p n a : ℕ} (x : β) (h : a < p ∨ p + n ≤ a) :
    m.fill p n x a = m a :=
  if_neg (by omega)

theorem fill_apply_of_in (m : Mem β) {p n a : ℕ} (x : β) (h : p ≤ a) (h' : a < p + n) :
    m.fill p n x a = x :=
  if_pos ⟨h, h'⟩

/-! ## Words -/

/-- The word at an address. -/
def word (m : Mem (BitVec 8)) (a : ℕ) : ℕ :=
  (m a).toNat + (m (a + 1)).toNat * 2 ^ 8 + (m (a + 2)).toNat * 2 ^ 16 + (m (a + 3)).toNat * 2 ^ 24

/-- The bytes of a word. -/
def wordBytes (x : ℕ) : List (BitVec 8) :=
  [BitVec.ofNat 8 x, BitVec.ofNat 8 (x / 2 ^ 8), BitVec.ofNat 8 (x / 2 ^ 16),
    BitVec.ofNat 8 (x / 2 ^ 24)]

/-- Overwrite a word. -/
def setWord (m : Mem (BitVec 8)) (a x : ℕ) : Mem (BitVec 8) := m.blit a (wordBytes x)

theorem word_congr {m m' : Mem (BitVec 8)} {a : ℕ} (h : ∀ b, a ≤ b → b < a + 4 → m b = m' b) :
    m.word a = m'.word a := by
  unfold word
  rw [h a (by omega) (by omega), h (a + 1) (by omega) (by omega), h (a + 2) (by omega) (by omega),
    h (a + 3) (by omega) (by omega)]

theorem setWord_apply_of_out (m : Mem (BitVec 8)) {a b : ℕ} (x : ℕ) (h : b < a ∨ a + 4 ≤ b) :
    m.setWord a x b = m b := by
  rcases h with h | h
  · exact blit_apply_lt m _ h
  · exact blit_apply_ge m _ h

/-- A word that fits is read back. -/
theorem word_setWord_self (m : Mem (BitVec 8)) (a : ℕ) {x : ℕ} (h : x < 2 ^ 32) :
    (m.setWord a x).word a = x := by
  have hb (i : ℕ) (hi : i < 4) : m.setWord a x (a + i) = (wordBytes x)[i] :=
    blit_apply_add m a (wordBytes x) hi
  have h0 : m.setWord a x a = BitVec.ofNat 8 x := hb 0 (by omega)
  unfold word
  rw [h0, hb 1 (by omega), hb 2 (by omega), hb 3 (by omega)]
  simp only [wordBytes, List.getElem_cons_succ, List.getElem_cons_zero, BitVec.toNat_ofNat]
  omega

theorem word_setWord_of_apart (m : Mem (BitVec 8)) {a b : ℕ} (x : ℕ) (h : b + 4 ≤ a ∨ a + 4 ≤ b) :
    (m.setWord a x).word b = m.word b :=
  word_congr fun c _ _ => setWord_apply_of_out m x (by omega)

theorem setWord_apply_add (m : Mem (BitVec 8)) (a x : ℕ) {i : ℕ} (hi : i < 4) :
    m.setWord a x (a + i) = (wordBytes x)[i] :=
  blit_apply_add m a (wordBytes x) hi

/-- Writes of words that lie apart can be exchanged. -/
theorem setWord_comm (m : Mem (BitVec 8)) {a b : ℕ} (x y : ℕ) (h : b + 4 ≤ a ∨ a + 4 ≤ b) :
    (m.setWord a x).setWord b y = (m.setWord b y).setWord a x := by
  ext1 c
  by_cases ha : a ≤ c ∧ c < a + 4
  · obtain ⟨i, rfl⟩ := Nat.exists_eq_add_of_le ha.1
    rw [setWord_apply_of_out _ y (by omega), setWord_apply_add _ a x (by omega),
      setWord_apply_add _ a x (by omega)]
  · rw [setWord_apply_of_out _ x (by omega)]
    by_cases hb : b ≤ c ∧ c < b + 4
    · obtain ⟨i, rfl⟩ := Nat.exists_eq_add_of_le hb.1
      rw [setWord_apply_add _ b y (by omega), setWord_apply_add _ b y (by omega)]
    · rw [setWord_apply_of_out _ y (by omega), setWord_apply_of_out _ x (by omega),
        setWord_apply_of_out _ y (by omega)]

end Mem
