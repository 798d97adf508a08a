import Mathlib.Data.BitVec
import FteQuake.Common.Sizebuf
import FteQuake.Lib.Memory
import FteQuake.Lib.ReadLog

/-!
# Attributes of STUN messages

`ICE_WasStun` of `net_ice.c` walks over the attributes of five kinds of messages. The walks differ in when they end, in
the comparison that refuses an attribute, and in the attributes that they know. What a walk reads of the message is
logged.

`WellFormed` is the grammar of the messages that a walk stays in (`stays_iff`): the walks read the header of an
attribute, and some values, without a look at what is left of the message.
-/

namespace FteQuake

namespace StunAttributes

/-! ## Attributes -/

/-- What a walk does with the value of an attribute. -/
inductive Kind
  | skip
  /-- An address, unless there is one. -/
  | mapped
  | address
  /-- A value that is copied as it is, at once or behind the walk. -/
  | value
  /-- An error code, the text of which goes to an `errmsg` of 128 bytes or of 64. -/
  | error (wide : Bool)
  | lifetime
  | username
  /-- A value of which `n` bytes are read. -/
  | fixed (n : ℕ)

/-- What a walk has found: an address, and an error code. -/
structure Found where
  adr : Bool
  err : ℕ

/-- The reads of an address. Its family is read when the length is right. -/
def addressReads (m : Mem QByte) (p alen : ℕ) : List Read :=
  if alen = 8 then (p + 5, 1) :: if m (p + 5) = 1 then [(p + 6, 2), (p + 8, 4)] else []
  else if alen = 20 then (p + 5, 1) :: if m (p + 5) = 2 then [(p + 6, 2), (p + 8, 16)] else []
  else []

/-- The message is an address that is taken. -/
def isAddress (m : Mem QByte) (p alen : ℕ) : Bool := alen = 8 ∧ m (p + 5) = 1 ∨ alen = 20 ∧ m (p + 5) = 2

/-- `sizeof(errmsg)`. -/
def errmsgSize (wide : Bool) : ℕ := if wide then 128 else 64

/-- `len`, an `unsigned short`, of the text of an error. -/
def errorLen (wide : Bool) (alen : BitVec 16) : ℕ := min (alen - 4).toNat (errmsgSize wide - 1)

/-- The reads of a value, for the attribute at `p`. -/
def Kind.reads (k : Kind) (m : Mem QByte) (p : ℕ) (alen : BitVec 16) (st : Found) : List Read :=
  match k with
  | skip => []
  | mapped => if st.adr then [] else addressReads m p alen.toNat
  | address => addressReads m p alen.toNat
  | value => [(p + 4, alen.toNat)]
  | error wide => (p + 8, errorLen wide alen) :: if st.err = 0 then [(p + 6, 1), (p + 7, 1)] else []
  | lifetime => if 4 ≤ alen.toNat then [(p + 4, 4)] else []
  | username => if alen.toNat < 256 then [(p + 4, alen.toNat)] else []
  | fixed n => [(p + 4, n)]

/-- What is found behind an attribute. -/
def Kind.next (k : Kind) (m : Mem QByte) (p : ℕ) (alen : BitVec 16) (st : Found) : Found :=
  match k with
  | mapped | address => { st with adr := st.adr || isAddress m p alen.toNat }
  | error _ => { st with err := if st.err = 0 then (m (p + 6)).toNat * 100 + (m (p + 7)).toNat % 100 else st.err }
  | _ => st

/-! ## The walks -/

/-- How the walks differ: `while(stunlen>0)` or `while(stunlen)`, a comparison of `size_t` or one of `int`, and the
attributes that are known. -/
structure Walk where
  positive : Bool
  unsigned : Bool
  kind : BitVec 16 → Option Kind

/-- The walk over a binding reply. -/
def bindingReply : Walk where
  positive := false
  unsigned := false
  kind
    | 0x0006 | 0x0008 => some .skip
    | 0x0001 => some .mapped
    | 0x0020 => some .address
    | 0x0009 => some (.error false)
    | _ => none

/-- The walk over a data indication. -/
def dataIndication : Walk where
  positive := true
  unsigned := false
  kind
    | 0x0013 => some .value
    | 0x0012 => some .address
    | _ => none

/-- The walk over a reply to `STUN_CREATEPERM`. -/
def createPermission : Walk where
  positive := true
  unsigned := false
  kind
    | 0x0015 | 0x0014 => some .value
    | 0x0009 => some (.error true)
    | 0x0008 => some .skip
    | _ => none

/-- The walk over a reply to `STUN_ALLOCATE` or `STUN_REFRESH`. -/
def allocate : Walk where
  positive := true
  unsigned := false
  kind
    | 0x000d => some .lifetime
    | 0x0008 => some .skip
    | 0x0015 | 0x0014 => some .value
    | 0x0016 | 0x0020 => some .address
    | 0x0009 => some (.error false)
    | _ => none

/-- The walk over a binding request. -/
def bindingRequest : Walk where
  positive := false
  unsigned := true
  kind
    | 0xc057 | 0x0025 | 0x8028 => some .skip
    | 0x0006 => some .username
    | 0x0008 => some (.fixed 20)
    | 0x0024 => some (.fixed 4)
    | 0x8029 | 0x802A => some (.fixed 8)
    | _ => none

/-- An attribute that is not known is skipped if its type allows it, and ends the walk if not. -/
def Walk.action (w : Walk) (type : BitVec 16) : Option Kind :=
  (w.kind type).or (if type &&& 0x8000 ≠ 0 then some .skip else none)

/-- The attribute is refused for its length. A `stunlen` below 0 is a large `size_t`. -/
def Walk.TooLong (w : Walk) (stunlen : ℤ) (alen : ℕ) : Prop :=
  if w.unsigned then 0 ≤ stunlen ∧ stunlen < alen + 4 else stunlen - 4 < alen

instance (w : Walk) (stunlen : ℤ) (alen : ℕ) : Decidable (w.TooLong stunlen alen) :=
  inferInstanceAs (Decidable (if w.unsigned then _ else _))

/-- A walk from the attribute at `p`, with `stunlen` bytes left. -/
def Walk.run (w : Walk) (m : Mem QByte) : ℕ → ℤ → ℕ → Found → Walked Read
  | 0, _, _, _ => .endless
  | fuel + 1, stunlen, p, st =>
    if if w.positive then stunlen ≤ 0 else stunlen = 0 then .done []
    else
      let alen := m.bigShort (p + 2)
      if w.TooLong stunlen alen.toNat then .done [(p + 2, 2)]
      else
        match w.action (m.bigShort p) with
        | none => .done [(p + 2, 2), (p, 2)]
        | some k =>
          .before ([(p + 2, 2), (p, 2)] ++ k.reads m p alen st)
            (w.run m fuel (stunlen - 4 - pad4 alen.toNat) (p + 4 + pad4 alen.toNat) (k.next m p alen st))

/-- The messages that are walked over. -/
inductive Message
  | bindingReply
  | dataIndication
  | createPermission
  | allocate
  | bindingRequest

namespace Message

def walk : Message → Walk
  | bindingReply => StunAttributes.bindingReply
  | dataIndication => StunAttributes.dataIndication
  | createPermission => StunAttributes.createPermission
  | allocate => StunAttributes.allocate
  | bindingRequest => StunAttributes.bindingRequest

/-- The `msgtype`s of a message. -/
def types : Message → List (BitVec 16)
  | bindingReply => [0x0101, 0x0111]
  | dataIndication => [0x0017]
  | createPermission => [0x0108, 0x0118]
  | allocate => [0x0103, 0x0113, 0x0104, 0x0114]
  | bindingRequest => [0x0001]

/-- The `magiccookie` is not looked at in a binding reply. -/
def cookie (m : Mem QByte) : Message → Prop
  | bindingReply => True
  | _ => m.bigShort 4 = 0x2112 ∧ m.bigShort 6 = 0xa442

/-- A datagram of `cursize` bytes is taken for a message: its `msglen`, a `short`, is that of what is behind the
header. -/
structure Entered (msg : Message) (m : Mem QByte) (cursize : ℕ) : Prop where
  header : 20 ≤ cursize
  types : m.bigShort 0 ∈ msg.types
  cookie : msg.cookie m
  msglen : (m.bigShort 2).toInt + 20 = cursize

/-- The walk over a message. There is no address and no error yet. -/
def wasStun (msg : Message) (m : Mem QByte) (fuel : ℕ) : Walked Read :=
  msg.walk.run m fuel (m.bigShort 2).toInt 20 ⟨false, 0⟩

end Message

/-! ## Well-formed messages -/

/-- How many bytes have to be left behind the header of an attribute. -/
def Kind.need (alen : ℕ) : Kind → ℕ
  | error wide => if alen < 4 then errmsgSize wide + 3 else 0
  | fixed n => n
  | _ => 0

/-- The attributes that a walk stays in, from `p` on in `n` bytes. -/
inductive WellFormed (w : Walk) (m : Mem QByte) : ℕ → ℕ → Prop
  | nil {p : ℕ} : WellFormed w m p 0
  /-- A value that is longer than the message. -/
  | refused {p n : ℕ} : 4 ≤ n → n < 4 + (m.bigShort (p + 2)).toNat → WellFormed w m p n
  | unknown {p n : ℕ} : 4 + (m.bigShort (p + 2)).toNat ≤ n → w.action (m.bigShort p) = none → WellFormed w m p n
  | attr {p n : ℕ} {k : Kind} : 4 + (m.bigShort (p + 2)).toNat ≤ n → w.action (m.bigShort p) = some k →
      k.need (m.bigShort (p + 2)).toNat ≤ n - 4 → 4 + pad4 (m.bigShort (p + 2)).toNat ≤ n →
      WellFormed w m (p + 4 + pad4 (m.bigShort (p + 2)).toNat) (n - 4 - pad4 (m.bigShort (p + 2)).toNat) →
      WellFormed w m p n
  /-- The last value, with some of its padding behind the message. -/
  | last {p n : ℕ} {k : Kind} : w.positive → 4 + (m.bigShort (p + 2)).toNat ≤ n → w.action (m.bigShort p) = some k →
      k.need (m.bigShort (p + 2)).toNat ≤ n - 4 → n < 4 + pad4 (m.bigShort (p + 2)).toNat → WellFormed w m p n

/-- An address is read inside of its value. -/
theorem addressReads_within {m : Mem QByte} {p alen n : ℕ} (h : 4 + alen ≤ n) :
    ∀ r ∈ addressReads m p alen, Read.Within (p + n) r := by
  have hin : ∀ q c : ℕ, p ≤ q → q + c ≤ p + 4 + alen → Read.Within (p + n) (q, c) := fun q c _ hq => .inr (by simp; omega)
  unfold addressReads
  split_ifs with h8 h1 h20 h2 <;> simp <;> (try refine ⟨?_, ?_, ?_⟩) <;> apply hin <;> omega

/-- A value is read inside of the message just if what its kind needs is left. -/
theorem Kind.reads_within {k : Kind} {m : Mem QByte} {p n : ℕ} {alen : BitVec 16} {st : Found}
    (h : 4 + alen.toNat ≤ n) :
    (∀ r ∈ k.reads m p alen st, Read.Within (p + n) r) ↔ k.need alen.toNat ≤ n - 4 := by
  have hval : Read.Within (p + n) (p + 4, alen.toNat) := .inr (by simp; omega)
  cases k with
  | skip => simp [reads, need]
  | mapped =>
    simp only [reads, need, Nat.zero_le, iff_true]
    split_ifs
    · simp
    · exact addressReads_within h
  | address => simpa [reads, need] using addressReads_within h
  | value => simpa [reads, need] using hval
  | error wide =>
    have hsize : 64 ≤ errmsgSize wide := by cases wide <;> decide
    by_cases h4 : alen.toNat < 4
    · -- The length of the text wraps around, and `errmsg` is filled.
      have hlen : errorLen wide alen = errmsgSize wide - 1 := by
        have hsub : (alen - 4).toNat = 65536 - 4 + alen.toNat := by bv_omega
        have hle : errmsgSize wide ≤ 128 := by cases wide <;> decide
        rw [errorLen, hsub]
        omega
      simp only [reads, need, hlen, if_pos h4]
      split_ifs <;> simp [Read.Within] <;> omega
    · have hlen : errorLen wide alen ≤ alen.toNat - 4 := by
        have hsub : (alen - 4).toNat = alen.toNat - 4 := by bv_omega
        rw [errorLen, hsub]
        exact min_le_left _ _
      simp only [reads, need, if_neg h4]
      split_ifs <;> simp [Read.Within] <;> omega
  | lifetime =>
    simp only [reads, need, Nat.zero_le, iff_true]
    split_ifs with h4
    · simp only [List.mem_singleton, forall_eq]
      exact .inr (by simp; omega)
    · simp
  | username =>
    simp only [reads, need, Nat.zero_le, iff_true]
    split_ifs
    · simpa using hval
    · simp
  | fixed c => simp [reads, need, Read.Within]; omega

/-! ## The walks stay in just the well-formed messages -/

namespace Walk

variable {w : Walk} {m : Mem QByte} {stop : ℕ}

/-- Nothing is left. -/
theorem run_nil (fuel p : ℕ) (st : Found) : w.run m (fuel + 1) 0 p st = .done [] := by
  simp [run]

/-- Padding behind the message ends some of the walks. -/
theorem run_neg {z : ℤ} (hw : w.positive) (hz : z < 0) (fuel p : ℕ) (st : Found) :
    w.run m (fuel + 1) z p st = .done [] := by
  simp [run, hw, hz.le]

/-- A length that is left is refused by both comparisons alike. -/
theorem tooLong_iff {n alen : ℕ} : w.TooLong n alen ↔ n < 4 + alen := by
  unfold TooLong
  split_ifs <;> omega

/-- One attribute, with `n` bytes left. -/
theorem run_attr {n : ℕ} (hn : 0 < n) (fuel p : ℕ) (st : Found) :
    w.run m (fuel + 1) n p st =
      if n < 4 + (m.bigShort (p + 2)).toNat then .done [(p + 2, 2)]
      else
        match w.action (m.bigShort p) with
        | none => .done [(p + 2, 2), (p, 2)]
        | some k =>
          .before ([(p + 2, 2), (p, 2)] ++ k.reads m p (m.bigShort (p + 2)) st)
            (w.run m fuel ((n : ℤ) - 4 - pad4 (m.bigShort (p + 2)).toNat) (p + 4 + pad4 (m.bigShort (p + 2)).toNat)
              (k.next m p (m.bigShort (p + 2)) st)) := by
  have hend : ¬ (if w.positive then (n : ℤ) ≤ 0 else (n : ℤ) = 0) := by split_ifs <;> omega
  rw [run, if_neg hend]
  simp only [tooLong_iff]

/-- The other walks go on behind the message, with the header of an attribute. -/
theorem not_stays_run {z : ℤ} {p : ℕ} (hw : ¬ w.positive) (hz : z ≠ 0) (hp : stop < p) (fuel : ℕ) (st : Found) :
    ¬ (w.run m fuel z p st).Stays (Read.Within stop) := by
  have hout : ¬ Read.Within stop (p + 2, 2) := by rw [Read.within_of_pos two_pos]; omega
  rcases fuel with - | fuel
  · simp [run]
  · intro hstays
    rw [run, if_neg (by simp [hw, hz])] at hstays
    dsimp only at hstays
    split at hstays
    · exact hout (by simpa using hstays)
    · split at hstays
      · exact hout (Walked.stays_done.mp hstays _ (by simp))
      · exact hout ((Walked.stays_before.mp hstays).1 _ (by simp))

/-- A walk that stays in the message, in well-formed attributes. -/
theorem wellFormed_of_stays (fuel : ℕ) {p n : ℕ} (st : Found) (h : (w.run m fuel n p st).Stays (Read.Within (p + n))) :
    WellFormed w m p n := by
  induction fuel generalizing p n st with
  | zero => simp [run] at h
  | succ fuel ih =>
    rcases n.eq_zero_or_pos with rfl | hn
    · exact .nil
    rw [run_attr hn] at h
    split at h
    case isTrue hlong =>
      have hhead := Walked.stays_done.mp h (p + 2, 2) (by simp)
      rw [Read.within_of_pos two_pos] at hhead
      exact .refused (by omega) hlong
    case isFalse hlen =>
      rw [not_lt] at hlen
      split at h
      case h_1 hnone => exact .unknown hlen hnone
      case h_2 k hk =>
        obtain ⟨hreads, hrest⟩ := Walked.stays_before.mp h
        have hneed := (Kind.reads_within hlen).mp fun r hr => hreads r (List.mem_append_right _ hr)
        set pad := pad4 (m.bigShort (p + 2)).toNat with hpad
        by_cases hfits : 4 + pad ≤ n
        · refine .attr hlen hk hneed hfits ?_
          have hleft : (n : ℤ) - 4 - pad = (n - 4 - pad : ℕ) := by omega
          rw [hleft] at hrest
          refine ih (k.next m p (m.bigShort (p + 2)) st) ?_
          rwa [show p + 4 + pad + (n - 4 - pad) = p + n by omega]
        · by_cases hw : w.positive
          · exact .last hw hlen hk hneed (not_le.mp hfits)
          · exact absurd hrest (not_stays_run hw (by omega) (by omega) _ _)

/-- A walk over well-formed attributes, in the message. -/
theorem stays_of_wellFormed {p n : ℕ} (h : WellFormed w m p n) (st : Found) :
    ∃ fuel, (w.run m fuel n p st).Stays (Read.Within (p + n)) := by
  have hheader : ∀ {p n : ℕ}, 4 ≤ n → ∀ r ∈ [(p + 2, 2), (p, 2)], Read.Within (p + n) r := by
    intro p n h4
    simp [Read.Within]
    omega
  induction h generalizing st with
  | nil => exact ⟨1, by simp [run_nil]⟩
  | @refused p n h4 hlong =>
    refine ⟨1, ?_⟩
    rw [run_attr (by omega), if_pos hlong]
    simp only [Walked.stays_done, List.mem_singleton, forall_eq]
    exact hheader h4 _ (by simp)
  | @unknown p n hlen hnone =>
    refine ⟨1, ?_⟩
    rw [run_attr (by omega), if_neg (by omega), hnone]
    exact Walked.stays_done.mpr (hheader (by omega))
  | @attr p n k hlen hk hneed hfits _ ih =>
    set pad := pad4 (m.bigShort (p + 2)).toNat with hpad
    obtain ⟨fuel, hrest⟩ := ih (k.next m p (m.bigShort (p + 2)) st)
    refine ⟨fuel + 1, ?_⟩
    rw [run_attr (by omega), if_neg (by omega), hk]
    refine Walked.stays_before.mpr ⟨?_, ?_⟩
    · exact List.forall_mem_append.mpr ⟨hheader (by omega), (Kind.reads_within hlen).mpr hneed⟩
    · rwa [show (n : ℤ) - 4 - pad = (n - 4 - pad : ℕ) by omega,
        show p + n = p + 4 + pad + (n - 4 - pad) by omega]
  | @last p n k hw hlen hk hneed hpad =>
    refine ⟨2, ?_⟩
    rw [run_attr (by omega), if_neg (by omega), hk]
    refine Walked.stays_before.mpr ⟨?_, ?_⟩
    · exact List.forall_mem_append.mpr ⟨hheader (by omega), (Kind.reads_within hlen).mpr hneed⟩
    · rw [run_neg hw (by omega)]
      simp

end Walk

namespace Message

/-- The bytes of the message behind its header. -/
theorem Entered.toInt {msg : Message} {m : Mem QByte} {cursize : ℕ} (h : msg.Entered m cursize) :
    (m.bigShort 2).toInt = (cursize - 20 : ℕ) := by
  have := h.header
  have := h.msglen
  omega

/-- The walk over a message ends, and reads nothing behind it, just if the message is well formed. -/
theorem wasStun_stays_iff {msg : Message} {m : Mem QByte} {cursize : ℕ} (h : msg.Entered m cursize) :
    (∃ fuel, (msg.wasStun m fuel).Stays (Read.Within cursize)) ↔ WellFormed msg.walk m 20 (cursize - 20) := by
  have hend : 20 + (cursize - 20) = cursize := Nat.add_sub_cancel' h.header
  simp only [wasStun, h.toInt]
  constructor
  · rintro ⟨fuel, hstays⟩
    refine Walk.wellFormed_of_stays fuel ⟨false, 0⟩ ?_
    rwa [hend]
  · intro hwell
    have hstays := Walk.stays_of_wellFormed hwell ⟨false, 0⟩
    rwa [hend] at hstays

/-- A binding reply with an IPv4 address. -/
def boundReply : Mem QByte :=
  .ofPacket [1, 1, 0, 12, 0x21, 0x12, 0xa4, 0x42, 0, 0, 0, 0, 0, 0, 0, 0, 0, 0, 0, 0,
    0, 0x20, 0, 8, 0, 1, 0x4b, 0x62, 0x5e, 0x12, 0xa4, 0x43]

theorem boundReply_stays : ∃ fuel, (bindingReply.wasStun boundReply fuel).Stays (Read.Within 32) :=
  (wasStun_stays_iff ⟨by decide, by decide, by exact trivial, by decide⟩).mpr
    (.attr (k := .address) (by decide) rfl (by decide) (by decide) .nil)

/-- A reply to `STUN_CREATEPERM` that ends with the header of an error. -/
def emptyError : Mem QByte :=
  .ofPacket [1, 0x18, 0, 4, 0x21, 0x12, 0xa4, 0x42, 0, 0, 0, 0, 0, 0, 0, 0, 0, 0, 0, 0, 0, 9, 0, 0]

/-- 127 bytes of text are taken from behind the message. -/
theorem emptyError_outside :
    createPermission.Entered emptyError 24 ∧ ¬ ∃ fuel, (createPermission.wasStun emptyError fuel).Stays (Read.Within 24) := by
  refine ⟨⟨by decide, by decide, ⟨by decide, by decide⟩, by decide⟩, ?_⟩
  rintro ⟨fuel, hstays⟩
  have hkind : createPermission.walk.action (emptyError.bigShort 20) = some (.error true) := rfl
  have hneed {k : Kind} (hk : createPermission.walk.action (emptyError.bigShort 20) = some k) :
      ¬ k.need (emptyError.bigShort 22).toNat ≤ 4 - 4 := by
    cases hkind.symm.trans hk
    decide
  have hwell : WellFormed createPermission.walk emptyError 20 4 := Walk.wellFormed_of_stays fuel _ hstays
  cases hwell with
  | refused _ hlong => exact absurd hlong (by decide)
  | unknown _ hnone => cases hkind.symm.trans hnone
  | attr _ hk hleft => exact hneed hk hleft
  | last _ _ hk hleft => exact hneed hk hleft

end Message

end StunAttributes

end FteQuake
