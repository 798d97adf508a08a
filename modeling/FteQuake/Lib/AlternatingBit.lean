import Mathlib.Data.List.Infix

/-!
# One message at a time over a network that loses packets

Two sides send each other numbered packets. A packet may carry a message, and tells which packet of the other
side was accepted last and how many messages have come. Every packet that was sent may arrive at any time, any
number of times or never; one that is not newer than the last one is refused. A message is taken when the one
before it is known to have come. It is sent again when a packet behind the one that carried it is acknowledged by
a side that has not got it: then that one is too old to be accepted.
-/

namespace AlternatingBit

open List Option

/-- A packet: its number, the message in it, the packet that it acknowledges, and how many messages its sender
had got. -/
structure Packet (M : Type*) where
  num : ℕ
  msg : Option M
  ack : ℕ
  count : ℕ

/-- One side: the number of its next packet, the last packet that it accepted with what that acknowledged and
counted, the number behind its last packet with a message, and all that it took, got and sent. -/
structure Side (M : Type*) where
  next : ℕ
  seen : ℕ
  acked : ℕ
  told : ℕ
  last : ℕ
  taken : List M
  got : List M
  sent : List (Packet M)

variable {M : Type*}

namespace Side

def fresh : Side M := ⟨1, 0, 0, 0, 0, [], [], []⟩

def take (x : Side M) (m : M) : Side M := { x with taken := x.taken ++ [m] }

def emit (x : Side M) (msg : Option M) : Side M :=
  { x with
    next := x.next + 1
    last := if msg.isSome then x.next + 1 else x.last
    sent := ⟨x.next, msg, x.seen, x.got.length⟩ :: x.sent }

def accept (x : Side M) (p : Packet M) : Side M :=
  { x with seen := p.num, acked := p.ack, told := p.count, got := x.got ++ p.msg.toList }

end Side

/-- What one side does while the other is `y`. -/
inductive Step (y x : Side M) : Side M → Prop
  | take (m : M) (h : x.told = x.taken.length) : Step y x (x.take m)
  | first (m : M) (h : x.told = x.taken.length) : Step y x ((x.take m).emit (some m))
  | plain : Step y x (x.emit none)
  | again (m : M) (hlast : x.last < x.acked) (htold : x.told ≠ x.taken.length) (hm : x.taken.getLast? = some m) :
    Step y x (x.emit (some m))
  | accept (p : Packet M) (hp : p ∈ y.sent) (hnew : x.seen < p.num) : Step y x (x.accept p)

/-- The messages from `x` to `y`. -/
structure Dir (x y : Side M) : Prop where
  num_lt : ∀ p ∈ x.sent, p.num < x.next
  seen_lt : y.seen < x.next
  ack_le : ∀ q ∈ y.sent, q.ack ≤ y.seen
  acked_le : x.acked ≤ y.seen
  count_le : ∀ q ∈ y.sent, q.count ≤ y.got.length
  told_le : x.told ≤ y.got.length
  mono : ∀ q ∈ y.sent, ∀ q' ∈ y.sent, q.num ≤ q'.num → q.count ≤ q'.count
  told_mono : ∀ q ∈ y.sent, x.seen < q.num → x.told ≤ q.count
  taken_le : x.taken.length ≤ x.told + 1
  got_prefix : y.got <+: x.taken
  /-- What may still be accepted is the last packet with a message. -/
  pending : ∀ p ∈ x.sent, y.seen < p.num → ∀ m ∈ p.msg, x.last = p.num + 1 ∧ x.taken = y.got ++ [m]
  /-- When the last message has come, those who do not count it acknowledge older packets. -/
  done : y.got = x.taken → x.told ≠ x.taken.length →
    (∀ q ∈ y.sent, q.count < x.taken.length → q.ack + 1 < x.last) ∧ x.acked + 1 < x.last

namespace Dir

variable {x y x' : Side M}

theorem eq_of_told (h : Dir x y) (htold : x.told = x.taken.length) : y.got = x.taken :=
  h.got_prefix.eq_of_length (le_antisymm h.got_prefix.length_le (htold ▸ h.told_le))

/-- A message that is taken is the next one to come. -/
theorem take (h : Dir x y) (m : M) (htold : x.told = x.taken.length) : Dir (x.take m) y := by
  have heq := h.eq_of_told htold
  refine { h with taken_le := ?_, got_prefix := ?_, pending := ?_, done := ?_ }
  · simp [Side.take, htold]
  · exact heq ▸ prefix_append _ _
  · intro p hp hnew m' hm
    have hnext := (h.pending p hp hnew m' hm).2
    simp [heq] at hnext
  · intro hdone
    simp [Side.take, heq] at hdone

theorem num_lt_emit (h : Dir x y) {msg : Option M} : ∀ p ∈ (x.emit msg).sent, p.num < x.next + 1 := by
  rintro p (_ | ⟨_, hp⟩)
  · exact Nat.lt_succ_self _
  · exact Nat.lt_succ_of_lt (h.num_lt p hp)

theorem emit_none (h : Dir x y) : Dir (x.emit none) y := by
  refine { h with num_lt := h.num_lt_emit, seen_lt := Nat.lt_succ_of_lt h.seen_lt, pending := ?_ }
  rintro p (_ | ⟨_, hp⟩) hnew m hm
  · cases hm
  · exact h.pending p hp hnew m hm

/-- The message that is next to come is sent, when no other packet with it may be accepted. -/
theorem emit_some (h : Dir x y) {m : M} (hm : x.taken = y.got ++ [m])
    (hold : ∀ p ∈ x.sent, y.seen < p.num → p.msg = none) : Dir (x.emit (some m)) y := by
  refine { h with num_lt := h.num_lt_emit, seen_lt := Nat.lt_succ_of_lt h.seen_lt, pending := ?_, done := ?_ }
  · rintro p (_ | ⟨_, hp⟩) hnew m' hm'
    · exact ⟨rfl, hm.trans (by rw [mem_some.1 hm'])⟩
    · rw [hold p hp hnew] at hm'
      cases hm'
  · intro hdone
    exact absurd (hdone.trans hm) (by simp)

/-- A step of the sender. -/
theorem sender (h : Dir x y) (hstep : Step y x x') : Dir x' y := by
  cases hstep with
  | take m htold => exact h.take m htold
  | first m htold =>
    have heq := h.eq_of_told htold
    refine (h.take m htold).emit_some (by simp [Side.take, heq]) fun p hp hnew => ?_
    refine eq_none_iff_forall_ne_some.2 fun m' hm => ?_
    have hnext := (h.pending p hp hnew m' hm).2
    simp [heq] at hnext
  | plain => exact h.emit_none
  | again m hlast htold hm =>
    -- the packet that had the message is too old, and the message had not come when that was said
    have hne : y.got ≠ x.taken := fun heq => by
      have hacked := (h.done heq htold).2
      omega
    refine h.emit_some ?_ fun p hp hnew => ?_
    · obtain ⟨r, hr⟩ := h.got_prefix
      have hlen := congrArg length hr
      rw [length_append] at hlen
      have hshort : r.length ≤ 1 := by
        have h₁ := h.taken_le
        have h₂ := h.told_le
        omega
      match r, hshort with
      | [], _ => exact absurd (by simpa using hr) hne
      | [m'], _ =>
        rw [← hr, getLast?_concat] at hm
        rw [← hr, some.inj hm]
    · refine eq_none_iff_forall_ne_some.2 fun m' hm' => ?_
      have h₁ := (h.pending p hp hnew m' hm').1
      have h₂ := h.acked_le
      omega
  | accept p hp hnew =>
    have htold := h.told_mono p hp hnew
    refine { h with acked_le := h.ack_le p hp, told_le := h.count_le p hp,
                    told_mono := fun q hq hlt => h.mono p hp q hq hlt.le,
                    taken_le := h.taken_le.trans (Nat.succ_le_succ htold), done := ?_ }
    intro hdone hne
    have hcount : p.count < x.taken.length :=
      lt_of_le_of_ne ((h.count_le p hp).trans h.got_prefix.length_le) hne
    have hbefore := (h.done hdone (by omega)).1
    exact ⟨hbefore, hbefore p hp hcount⟩

/-- A step of the receiver. -/
theorem receiver (h : Dir y x) (hrev : Dir x y) (hstep : Step y x x') : Dir y x' := by
  have hemit (msg : Option M) : Dir y (x.emit msg) := by
    refine { h with ack_le := ?_, count_le := ?_, mono := ?_, told_mono := ?_, done := fun hdone hne => ?_ }
    · rintro q (_ | ⟨_, hq⟩)
      · exact le_rfl
      · exact h.ack_le q hq
    · rintro q (_ | ⟨_, hq⟩)
      · exact le_rfl
      · exact h.count_le q hq
    · rintro q (_ | ⟨_, hq⟩) q' (_ | ⟨_, hq'⟩) hle
      · exact le_rfl
      · exact absurd hle (not_le.2 (hrev.num_lt q' hq'))
      · exact h.count_le q hq
      · exact h.mono q hq q' hq' hle
    · rintro q (_ | ⟨_, hq⟩) hlt
      · exact h.told_le
      · exact h.told_mono q hq hlt
    · refine ⟨?_, (h.done hdone hne).2⟩
      rintro q (_ | ⟨_, hq⟩) hlt
      · exact absurd (congrArg length hdone) (ne_of_lt hlt)
      · exact (h.done hdone hne).1 q hq hlt
  cases hstep with
  | take m _ => exact { h with }
  | first m _ => exact { hemit (some m) with }
  | plain => exact hemit none
  | again m _ _ _ => exact hemit (some m)
  | accept p hp hnew =>
    have hle (q : Packet M) (hq : q ∈ x.sent) : q.ack ≤ p.num := (h.ack_le q hq).trans hnew.le
    have hacked : y.acked ≤ p.num := h.acked_le.trans hnew.le
    have hseen := h.num_lt p hp
    cases hmsg : p.msg with
    | none =>
      have hgot : x.accept p = { x with seen := p.num, acked := p.ack, told := p.count } := by
        simp [Side.accept, hmsg]
      rw [hgot]
      exact { h with seen_lt := hseen, ack_le := hle, acked_le := hacked,
                     pending := fun q hq hlt => h.pending q hq (hnew.trans hlt) }
    | some m =>
      obtain ⟨hlast, htaken⟩ := h.pending p hp hnew m hmsg
      have hgot : (x.accept p).got = y.taken := by rw [Side.accept, hmsg, toList_some, htaken]
      have hlen : x.got.length ≤ y.taken.length := by simp [htaken]
      refine { h with seen_lt := hseen, ack_le := hle, acked_le := hacked, count_le := fun q hq => ?_,
                      told_le := ?_, got_prefix := hgot ▸ prefix_rfl, pending := ?_, done := ?_ }
      · exact hgot ▸ (h.count_le q hq).trans hlen
      · exact hgot ▸ h.told_le.trans hlen
      · intro q hq hlt m' hm'
        have hq := (h.pending q hq (hnew.trans hlt) m' hm').1
        have hlt : p.num < q.num := hlt
        omega
      · refine fun _ _ => ⟨fun q hq _ => ?_, ?_⟩
        · have hq := h.ack_le q hq
          omega
        · have hy := h.acked_le
          omega

theorem fresh : Dir (Side.fresh : Side M) Side.fresh where
  num_lt := fun _ hp => nomatch hp
  seen_lt := Nat.zero_lt_one
  ack_le := fun _ hq => nomatch hq
  acked_le := le_rfl
  count_le := fun _ hq => nomatch hq
  told_le := le_rfl
  mono := fun _ hq => nomatch hq
  told_mono := fun _ hq => nomatch hq
  taken_le := Nat.zero_le _
  got_prefix := prefix_rfl
  pending := fun _ hp => nomatch hp
  done := fun _ hne => absurd rfl hne

end Dir

end AlternatingBit
