import FteQuake.Common.MsgScalars

/-!
# Typed messages

A message written as a sequence of chars, bytes, shorts, longs, floats, doubles, entity numbers and
strings, and read back by the same sequence of types. The format carries no tags: writer and
reader stay together only because every reader moves the cursor by the length of what the
writer appended.

* `msgReadItem_takes`: every reader but one takes the bytes of its writer and returns the value.
* `msgReadDouble` leaves the cursor where it was. `readsBack_iff` says that this always shows: a
  message comes back, with the cursor at its end, exactly when it has no double. The argument is
  that a reader that has fallen behind the writer never catches up (`msgReadItem_behind`); the one
  item that a reader might take more bytes for than were written is an entity number.
-/

namespace FteQuake

open StreamProgram MsgState Sizebuf List Option BitVec StateT

/-- The types of message items. -/
inductive MsgType
  | char
  | byte
  | short
  | long
  | float
  | double
  | entity
  | string
  deriving DecidableEq, Repr

/-- A value to send; floats and doubles as bit patterns. -/
inductive MsgItem
  | char (c : Int)
  | byte (c : Int)
  | short (c : Int)
  | long (c : Int)
  | float (f : BitVec 32)
  | double (c : BitVec 64)
  | entity (entnum : ℕ)
  | string (s : List QByte)
  deriving DecidableEq

namespace MsgItem

def type : MsgItem → MsgType
  | char _ => .char
  | byte _ => .byte
  | short _ => .short
  | long _ => .long
  | float _ => .float
  | double _ => .double
  | entity _ => .entity
  | string _ => .string

/-- The value is one that its type can carry. -/
def InRange : MsgItem → Prop
  | char c => -2 ^ 7 ≤ c ∧ c < 2 ^ 7
  | byte c => 0 ≤ c ∧ c < 2 ^ 8
  | short c => -2 ^ 15 ≤ c ∧ c < 2 ^ 15
  | long c => -2 ^ 31 ≤ c ∧ c < 2 ^ 31
  | float _ | double _ => True
  | entity entnum => entnum ≤ maxEdicts
  | string s => 0 ∉ s ∧ s.length < 65535

instance : DecidablePred InRange
  | char _ | byte _ | short _ | long _ => inferInstanceAs (Decidable (_ ∧ _))
  | float _ | double _ => inferInstanceAs (Decidable True)
  | entity _ => inferInstanceAs (Decidable (_ ≤ _))
  | string _ => inferInstanceAs (Decidable (_ ∧ _))

/-- The bytes of an item. -/
def bytes : MsgItem → List QByte
  | char c | byte c => byteBytes c
  | short c => shortBytes c
  | long c => longBytes c
  | float f => floatBytes f
  | double c => doubleBytes c
  | entity entnum => entityBytes entnum
  | string s => s ++ [0]

/-- The item is a double. -/
def IsDouble (i : MsgItem) : Prop := i.type = .double

instance : DecidablePred IsDouble := fun _ => inferInstanceAs (Decidable (_ = _))

end MsgItem

/-- The writer of an item. -/
def msgWriteItem : MsgItem → MsgWriter Unit
  | .char c => msgWriteChar c
  | .byte c => msgWriteByte c
  | .short c => msgWriteShort c
  | .long c => msgWriteLong c
  | .float f => msgWriteFloat f
  | .double c => msgWriteDouble c
  | .entity entnum => msgWriteEntity entnum
  | .string s => msgWriteString s

/-- The reader of a type. -/
def msgReadItem : MsgType → MsgReader MsgItem
  | .char => MsgItem.char <$> msgReadChar
  | .byte => MsgItem.byte <$> msgReadByte
  | .short => MsgItem.short <$> msgReadShort
  | .long => MsgItem.long <$> msgReadLong
  | .float => MsgItem.float <$> msgReadFloat
  | .double => MsgItem.double <$> msgReadDouble
  | .entity => (fun n => MsgItem.entity n.toNat) <$> msgReadBigEntity
  | .string => MsgItem.string <$> msgReadString

/-- Writing a message. -/
def msgWriteItems (items : List MsgItem) : MsgWriter Unit := items.forM msgWriteItem

/-- Reading a message by its types. -/
def msgReadItems (types : List MsgType) : MsgReader (List MsgItem) := types.mapM msgReadItem

/-- **A message comes back**: written to `buf` and read from there through `sb`, the values are the
same, no read fails and the cursor ends at the end of the message. -/
def ReadsBack (items : List MsgItem) (buf : Sizebuf) (sb : MsgPtr) (prim : Netprim)
    (st : MsgState) : Prop :=
  ∃ buf' st', (msgWriteItems items).run buf = some ((), buf') ∧
    (msgReadItems (items.map MsgItem.type)).run
      (msgBeginReading sb prim (st.setBuffer sb buf')) = some (items, st') ∧
    st'.msgBadread = false ∧ st'.msgReadmsg.currentbit = 8 * buf'.cursize

/-! ## Writing -/

theorem msgWriteItem_emits {i : MsgItem} (h : i.InRange) :
    sink.Emits (msgWriteItem i) i.bytes () := by
  cases i with
  | char c => exact msgWriteChar_emits c
  | byte c => exact msgWriteByte_emits c
  | short c => exact msgWriteShort_emits c
  | long c => exact msgWriteLong_emits c
  | float f => exact msgWriteFloat_emits f
  | double c => exact msgWriteDouble_emits c
  | entity entnum => exact msgWriteEntity_emits h
  | string s => exact msgWriteString_emits s

theorem msgWriteItems_emits {items : List MsgItem} (h : ∀ i ∈ items, i.InRange) :
    sink.Emits (msgWriteItems items) (items.flatMap MsgItem.bytes) () :=
  Sink.Emits.forM items fun i hi => msgWriteItem_emits (h i hi)

/-! ## Reading what was written -/

theorem toNat_ofInt_of_range {w : ℕ} {c : Int} (h : 0 ≤ c) (h' : c < 2 ^ w) :
    ((BitVec.ofInt w c).toNat : Int) = c := by
  have hpos := Nat.two_pow_pos w
  rw [toNat_ofInt, Int.toNat_of_nonneg (Int.emod_nonneg _ (by omega)),
    Int.emod_eq_of_lt h (by push_cast; exact h')]

/-- **Every reader but the double's is right on the bytes of its writer.** -/
theorem msgReadItem_takes {i : MsgItem} (h : i.InRange) (hd : ¬i.IsDouble) :
    source.Takes (msgReadItem i.type) i.bytes i := by
  cases i with
  | char c =>
    have e := (msgReadChar_byteBytes c).map MsgItem.char
    rwa [toInt_ofInt_of_range h.1 h.2] at e
  | byte c =>
    have e := (msgReadByte_byteBytes c).map MsgItem.byte
    rwa [toNat_ofInt_of_range h.1 h.2] at e
  | short c =>
    have e := (msgReadShort_shortBytes c).map MsgItem.short
    rwa [toInt_ofInt_of_range h.1 h.2] at e
  | long c =>
    have e := (msgReadLong_longBytes c).map MsgItem.long
    rwa [toInt_ofInt_of_range h.1 h.2] at e
  | float f => exact (msgReadFloat_floatBytes f).map MsgItem.float
  | double c => exact absurd rfl hd
  | entity entnum =>
    have e := (msgReadBigEntity_entityBytes h).map fun n => MsgItem.entity n.toNat
    have hm : entnum ≤ 2 ^ 22 - 1 := h
    rwa [toNat_ofNat, Nat.mod_eq_of_lt (by omega)] at e
  | string s => exact (msgReadString_bytes h.1 (by have := h.2; omega)).map MsgItem.string

theorem msgReadItems_takes {items : List MsgItem} (h : ∀ i ∈ items, i.InRange) (hd : ∀ i ∈ items, ¬i.IsDouble) :
    source.Takes (msgReadItems (items.map MsgItem.type)) (items.flatMap MsgItem.bytes) items := by
  have e := Source.Takes.mapM (R := source) (f := fun i => msgReadItem (MsgItem.type i))
    (g := MsgItem.bytes) (v := id) items fun i hi => msgReadItem_takes (h i hi) (hd i hi)
  rw [List.map_id] at e
  rwa [msgReadItems, List.mapM_map]

/-! ## Reading whatever is there -/

/-- The cursor is at byte `r` of a buffer of whole bytes. -/
structure AtByte (st : MsgState) (r : ℕ) : Prop where
  packing : st.msgReadmsg.packing = .rawBytes
  cursor : st.msgReadmsg.currentbit = 8 * r

theorem AtByte.skip {st : MsgState} {r : ℕ} (h : AtByte st r) (n : ℕ) :
    AtByte (st.skip n) (r + n) :=
  ⟨by simpa using h.packing, by simp [h.cursor, Nat.mul_add]⟩

theorem AtByte.bad {st : MsgState} {r : ℕ} (h : AtByte st r) :
    AtByte { st with msgBadread := true } r :=
  ⟨h.packing, h.cursor⟩

theorem AtByte.readcount {st : MsgState} {r : ℕ} (h : AtByte st r) :
    st.msgReadmsg.currentbit >>> 3 = r := by
  rw [h.cursor, Nat.shiftRight_eq_div_pow]
  omega

/-- A read has failed. -/
def Failed (st : MsgState) : Prop := (∃ r, AtByte st r) ∧ st.msgBadread = true

theorem Failed.skip {st : MsgState} (h : Failed st) (n : ℕ) : Failed (st.skip n) := by
  obtain ⟨⟨r, hr⟩, hb⟩ := h
  exact ⟨⟨_, hr.skip n⟩, by simpa using hb⟩

/-! ### Scalars -/

theorem msgReadScalar_run {α : Type} {n : ℕ} {packed : MsgReader α} {bad : α}
    {decode : List QByte → α} {st : MsgState} {r : ℕ} (h : AtByte st r) :
    (msgReadScalar n packed bad decode).run st =
      if r + n > st.msgReadmsg.cursize then some (bad, { st with msgBadread := true })
      else some (decode (st.msgReadmsg.data.slice r n), st.skip n) := by
  have e : (r + n) <<< 3 = st.msgReadmsg.currentbit + 8 * n := by
    rw [h.cursor, Nat.shiftLeft_eq]
    ring
  show msgReadScalar n packed bad decode st = _
  simp only [msgReadScalar, h.packing, ne_eq, not_true_eq_false, if_false, h.readcount, e]
  rfl

/-- A scalar reader fails or moves on by its width. -/
theorem msgReadScalar_inv {α : Type} {n : ℕ} {packed : MsgReader α} {bad : α}
    {decode : List QByte → α} {st st' : MsgState} {r : ℕ} {a : α} (h : AtByte st r)
    (hrun : (msgReadScalar n packed bad decode).run st = some (a, st')) :
    Failed st' ∨ st' = st.skip n ∧ a = decode (st.msgReadmsg.data.slice r n) := by
  rw [msgReadScalar_run h] at hrun
  split at hrun
  · obtain ⟨-, rfl⟩ := Prod.mk.inj (some.inj hrun)
    exact .inl ⟨⟨r, h.bad⟩, rfl⟩
  · obtain ⟨rfl, rfl⟩ := Prod.mk.inj (some.inj hrun)
    exact .inr ⟨rfl, rfl⟩

/-- The double's reader fails or does not move at all. -/
theorem msgReadDouble_inv {st st' : MsgState} {r : ℕ} {c : BitVec 64} (h : AtByte st r)
    (hrun : msgReadDouble.run st = some (c, st')) : Failed st' ∨ st' = st := by
  rw [show msgReadDouble.run st = msgReadDouble st from rfl, msgReadDouble] at hrun
  dsimp only at hrun
  split at hrun
  · obtain ⟨-, rfl⟩ := Prod.mk.inj (some.inj hrun)
    exact .inl ⟨⟨r, h.bad⟩, rfl⟩
  · obtain ⟨-, rfl⟩ := Prod.mk.inj (some.inj hrun)
    exact .inr rfl

/-! ### Strings -/

theorem msgReadStringLoop_succ {n r : ℕ} {acc : List QByte} {st : MsgState} (h : AtByte st r) :
    (msgReadStringLoop (n + 1) acc).run st =
      if r + 1 > st.msgReadmsg.cursize then some (acc, { st with msgBadread := true })
      else
        let c := (st.msgReadmsg.data r).toInt
        if st.msgBadread = true ∨ c = 0 then some (acc, st.skip 1)
        else if acc.length < 65536 - 1 then
          (msgReadStringLoop n (acc ++ [BitVec.ofInt 8 c])).run (st.skip 1)
        else (msgReadStringLoop n acc).run { st.skip 1 with msgBadread := true } := by
  have hc := @msgReadScalar_run _ 1 (BitVec.toInt <$> msgReadBits (-8)) (-1) (fun bs => (bs.getD 0 0).toInt) _ _ h
  rw [msgReadStringLoop, run_bind, show msgReadChar.run st = _ from hc]
  by_cases hr : r + 1 > st.msgReadmsg.cursize
  · rw [if_pos hr, if_pos hr]
    simp
  · rw [if_neg hr, if_neg hr]
    simp only [Mem.slice_one, getD_cons_zero, bind_eq_bind, bind_some,
      run_bind, run_get, Option.pure_def, msgBadread_skip]
    by_cases hc0 : st.msgBadread = true ∨ (st.msgReadmsg.data r).toInt = 0
    · rw [if_pos hc0, if_pos hc0]
      rfl
    · rw [if_neg hc0, if_neg hc0]
      split <;> rfl

theorem msgReadStringLoop_inv {n r : ℕ} {acc s : List QByte} {st st' : MsgState} (h : AtByte st r)
    (hrun : (msgReadStringLoop n acc).run st = some (s, st')) :
    Failed st' ∨ acc.length ≤ s.length ∧ st' = st.skip (s.length + 1 - acc.length) := by
  induction n generalizing acc st r with
  | zero => cases hrun
  | succ n ih =>
    rw [msgReadStringLoop_succ h] at hrun
    split at hrun
    · obtain ⟨-, rfl⟩ := Prod.mk.inj (some.inj hrun)
      exact .inl ⟨⟨r, h.bad⟩, rfl⟩
    dsimp only at hrun
    split at hrun
    · obtain ⟨rfl, rfl⟩ := Prod.mk.inj (some.inj hrun)
      exact .inr ⟨le_rfl, by rw [Nat.add_sub_cancel_left]⟩
    split at hrun
    · rcases ih (h.skip 1) hrun with hf | ⟨hle, rfl⟩
      · exact .inl hf
      · rw [length_append, length_singleton] at hle
        refine .inr ⟨by omega, ?_⟩
        rw [← skip_add, length_append, length_singleton]
        congr 1
        omega
    · -- the string was too long, and the failure stays
      rcases ih (h.skip 1).bad hrun with hf | ⟨-, rfl⟩
      · exact .inl hf
      · exact .inl (Failed.skip ⟨⟨_, (h.skip 1).bad⟩, rfl⟩ _)

theorem msgReadString_inv {r : ℕ} {s : List QByte} {st st' : MsgState} (h : AtByte st r)
    (hrun : msgReadString.run st = some (s, st')) :
    Failed st' ∨ st' = st.skip (s.length + 1) := by
  rcases msgReadStringLoop_inv h hrun with hf | ⟨-, e⟩
  · exact .inl hf
  · exact .inr e

/-! ### Entity numbers -/

theorem toNat_ofInt_decodeShort (b₀ b₁ : QByte) :
    (BitVec.ofInt 32 (decodeShort [b₀, b₁]).toInt).toNat =
      (if b₁.toNat < 128 then 0 else 0xffff0000) + b₀.toNat + 256 * b₁.toNat := by
  have h₀ := b₀.isLt
  have h₁ := b₁.isLt
  simp only [decodeShort, getD_cons_zero, getD_cons_succ, toNat_ofInt,
    toInt_eq_toNat_cond, toNat_ofNat, Nat.shiftLeft_eq]
  split <;> split <;> omega

/-- The number put together from a short with its high bit set and a byte. -/
theorem toNat_bigEntity {num : BitVec 32} (b : QByte) :
    ((num &&& 0x7fff) <<< 8 ||| BitVec.ofInt 32 (b.toNat : Int)).toNat =
      num.toNat % 2 ^ 15 * 256 + b.toNat := by
  have hb := b.isLt
  have hn : num.toNat % 2 ^ 15 < 2 ^ 15 := Nat.mod_lt _ (by omega)
  rw [ofInt_natCast, toNat_or, toNat_shiftLeft, toNat_and,
    show (0x7fff : BitVec 32).toNat = 2 ^ 15 - 1 from rfl, Nat.and_two_pow_sub_one_eq_mod,
    toNat_ofNat, Nat.shiftLeft_eq, Nat.mod_eq_of_lt (a := _ * 2 ^ 8) (by omega),
    Nat.mod_eq_of_lt (a := b.toNat) (by omega), Nat.mul_comm, ← Nat.two_pow_add_eq_or_of_lt hb]

theorem msgReadBigEntity_inv {r : ℕ} {e : BitVec 32} {st st' : MsgState} (h : AtByte st r)
    (hrun : msgReadBigEntity.run st = some (e, st')) :
    Failed st' ∨ (e.toNat < 0x8000 ∧ st' = st.skip 2) ∨
      (128 ≤ (st.msgReadmsg.data (r + 1)).toNat ∧
        e.toNat = ((st.msgReadmsg.data (r + 1)).toNat - 128) * 65536 +
          (st.msgReadmsg.data r).toNat * 256 + (st.msgReadmsg.data (r + 2)).toNat ∧
        st' = st.skip 3) := by
  rw [msgReadBigEntity, run_bind] at hrun
  obtain ⟨⟨c, st₁⟩, hc, hrun⟩ := bind_eq_some_iff.1 hrun
  dsimp only at hrun
  have hbig := and_8000_ne_zero_iff (BitVec.ofInt 32 c).toNat
  rw [ofNat_toNat, setWidth_eq] at hbig
  rcases msgReadScalar_inv h hc with hf | ⟨rfl, hdec⟩
  · -- the failure stays through the second read
    obtain ⟨⟨r', hr'⟩, hb⟩ := hf
    split at hrun
    · rw [run_bind] at hrun
      obtain ⟨⟨c', st₂⟩, hc', hrun⟩ := bind_eq_some_iff.1 hrun
      obtain ⟨-, rfl⟩ := Prod.mk.inj (some.inj hrun)
      rcases msgReadScalar_inv hr' hc' with hf | ⟨rfl, -⟩
      · exact .inl hf
      · exact .inl (Failed.skip ⟨⟨r', hr'⟩, hb⟩ 1)
    · obtain ⟨-, rfl⟩ := Prod.mk.inj (some.inj hrun)
      exact .inl ⟨⟨r', hr'⟩, hb⟩
  · have hnum := toNat_ofInt_decodeShort (st.msgReadmsg.data r) (st.msgReadmsg.data (r + 1))
    rw [show (decodeShort [st.msgReadmsg.data r, st.msgReadmsg.data (r + 1)]).toInt = c from hdec.symm] at hnum
    have h₀ := (st.msgReadmsg.data r).isLt
    have h₁ := (st.msgReadmsg.data (r + 1)).isLt
    split at hrun
    · rename_i hset
      rw [run_bind] at hrun
      obtain ⟨⟨c', st₂⟩, hc', hrun⟩ := bind_eq_some_iff.1 hrun
      obtain ⟨rfl, rfl⟩ := Prod.mk.inj (some.inj hrun)
      rcases msgReadScalar_inv (h.skip 2) hc' with hf | ⟨rfl, hdec'⟩
      · exact .inl hf
      · have hbyte : c' = ((st.msgReadmsg.data (r + 2)).toNat : Int) := by
          rw [hdec', msgReadmsg_skip]
          rfl
        have hset := hbig.1 hset
        rw [hbyte, toNat_bigEntity]
        refine .inr (.inr ⟨?_, ?_, (skip_add st 2 1).symm⟩)
        · split at hnum <;> omega
        · split at hnum <;> omega
    · rename_i hclear
      obtain ⟨rfl, rfl⟩ := Prod.mk.inj (some.inj hrun)
      have hclear := mt hbig.2 hclear
      refine .inr (.inl ⟨?_, rfl⟩)
      split at hnum <;> omega

/-! ### The cursor behind the writer -/

/-- What the reader of an item's type takes when it returns the item, from byte `r` of `data`: the
bytes of the item; nothing if it is a double; or three bytes for an entity number that two would
have done for. -/
inductive Taken (data : Mem QByte) (r : ℕ) : MsgItem → ℕ → Prop
  | exact {i} : ¬i.IsDouble → Taken data r i i.bytes.length
  | double {c} : Taken data r (.double c) 0
  | entity {entnum} : entnum < 0x8000 → (data r).toNat = entnum / 256 →
      (data (r + 1)).toNat = 128 → (data (r + 2)).toNat = entnum % 256 →
      Taken data r (.entity entnum) 3

/-- A mapped reader ran to a value of the map. -/
theorem run_map_inv {α : Type} {f : α → MsgItem} {m : MsgReader α} {i : MsgItem}
    {st st' : MsgState} (h : (f <$> m).run st = some (i, st')) :
    ∃ a, m.run st = some (a, st') ∧ i = f a := by
  rw [run_map] at h
  obtain ⟨⟨a, s⟩, hm, he⟩ := map_eq_some_iff.1 h
  obtain ⟨ha, rfl⟩ := Prod.mk.inj he
  exact ⟨a, hm, ha.symm⟩

theorem length_entityBytes (entnum : ℕ) :
    (entityBytes entnum).length = if entnum ≥ 0x8000 then 3 else 2 := by
  rw [entityBytes]
  split <;> rfl

/-- **A reader fails or takes what `Taken` says.** -/
theorem msgReadItem_inv {t : MsgType} {i : MsgItem} {st st' : MsgState} {r : ℕ} (h : AtByte st r)
    (hrun : (msgReadItem t).run st = some (i, st')) :
    Failed st' ∨ ∃ n, st' = st.skip n ∧ Taken st.msgReadmsg.data r i n := by
  cases t with
  | char =>
    obtain ⟨a, hm, rfl⟩ := run_map_inv hrun
    exact (msgReadScalar_inv h hm).imp_right fun e => ⟨1, e.1, .exact (i := .char a) nofun⟩
  | byte =>
    obtain ⟨a, hm, rfl⟩ := run_map_inv hrun
    exact (msgReadScalar_inv h hm).imp_right fun e => ⟨1, e.1, .exact (i := .byte a) nofun⟩
  | short =>
    obtain ⟨a, hm, rfl⟩ := run_map_inv hrun
    exact (msgReadScalar_inv h hm).imp_right fun e => ⟨2, e.1, .exact (i := .short a) nofun⟩
  | long =>
    obtain ⟨a, hm, rfl⟩ := run_map_inv hrun
    exact (msgReadScalar_inv h hm).imp_right fun e => ⟨4, e.1, .exact (i := .long a) nofun⟩
  | float =>
    obtain ⟨a, hm, rfl⟩ := run_map_inv hrun
    exact (msgReadScalar_inv h hm).imp_right fun e => ⟨4, e.1, .exact (i := .float a) nofun⟩
  | double =>
    obtain ⟨a, hm, rfl⟩ := run_map_inv hrun
    refine (msgReadDouble_inv h hm).imp_right fun e => ⟨0, ?_, .double⟩
    rw [e]
    exact (source.skip_zero st).symm
  | entity =>
    obtain ⟨a, hm, rfl⟩ := run_map_inv hrun
    rcases msgReadBigEntity_inv h hm with hf | ⟨hlt, rfl⟩ | ⟨hset, ha, rfl⟩
    · exact .inl hf
    · refine .inr ⟨2, rfl, ?_⟩
      have e := @Taken.exact st.msgReadmsg.data r (.entity a.toNat) nofun
      rwa [MsgItem.bytes, length_entityBytes, if_neg (by omega)] at e
    · refine .inr ⟨3, rfl, ?_⟩
      have h₀ := (st.msgReadmsg.data r).isLt
      have h₂ := (st.msgReadmsg.data (r + 2)).isLt
      by_cases hbig : a.toNat ≥ 0x8000
      · have e := @Taken.exact st.msgReadmsg.data r (.entity a.toNat) nofun
        rwa [MsgItem.bytes, length_entityBytes, if_pos hbig] at e
      · exact .entity (by omega) (by omega) (by omega) (by omega)
  | string =>
    obtain ⟨a, hm, rfl⟩ := run_map_inv hrun
    refine (msgReadString_inv h hm).imp_right fun e => ⟨a.length + 1, e, ?_⟩
    have e := @Taken.exact st.msgReadmsg.data r (.string a) nofun
    rwa [MsgItem.bytes, length_append, length_singleton] at e

theorem Failed.msgReadItem {t : MsgType} {i : MsgItem} {st st' : MsgState} (h : Failed st)
    (hrun : (msgReadItem t).run st = some (i, st')) : Failed st' := by
  obtain ⟨r, hr⟩ := h.1
  rcases msgReadItem_inv hr hrun with hf | ⟨n, rfl, -⟩
  · exact hf
  · exact h.skip n

/-- One step of reading a message. -/
theorem msgReadItems_cons {t : MsgType} {types : List MsgType} {items : List MsgItem}
    {st st' : MsgState} (h : (msgReadItems (t :: types)).run st = some (items, st')) :
    ∃ i rest st₁, items = i :: rest ∧ (msgReadItem t).run st = some (i, st₁) ∧
      (msgReadItems types).run st₁ = some (rest, st') := by
  rw [msgReadItems, mapM_cons, run_bind] at h
  obtain ⟨⟨i, st₁⟩, hi, h⟩ := bind_eq_some_iff.1 h
  rw [run_bind] at h
  obtain ⟨⟨rest, st₂⟩, hrest, h⟩ := bind_eq_some_iff.1 h
  obtain ⟨rfl, rfl⟩ := Prod.mk.inj (some.inj h)
  exact ⟨i, rest, st₁, rfl, hi, hrest⟩

theorem Failed.msgReadItems {types : List MsgType} {items : List MsgItem} {st st' : MsgState}
    (h : Failed st) (hrun : (msgReadItems types).run st = some (items, st')) : Failed st' := by
  induction types generalizing items st with
  | nil =>
    obtain ⟨-, rfl⟩ := Prod.mk.inj (some.inj hrun)
    exact h
  | cons t types ih =>
    obtain ⟨i, rest, st₁, rfl, hi, hrest⟩ := msgReadItems_cons hrun
    exact ih (h.msgReadItem hi) hrest

/-- The bytes at the end of what came before an item, where the item begins. -/
theorem slice_at_item {data : Mem QByte} {size : ℕ} {pre xs rest : List QByte}
    (h : data.slice 0 size = pre ++ (xs ++ rest)) {j : ℕ} (hj : j < xs.length) :
    data (pre.length + j) = xs[j] := by
  have hlen := congrArg List.length h
  simp only [Mem.length_slice, length_append] at hlen
  have e := getElem_of_eq h (i := pre.length + j) (by simpa using by omega)
  rw [Mem.getElem_slice, Nat.zero_add, getElem_append_right (by omega)] at e
  rw [e]
  simp [getElem_append_left hj]

/-- **A reader that takes more bytes than were written is at least two bytes behind**, so it does
not catch up. -/
theorem Taken.le {data : Mem QByte} {size r n : ℕ} {i : MsgItem} {pre rest : List QByte} (h : Taken data r i n)
    (hdata : data.slice 0 size = pre ++ (i.bytes ++ rest)) (hr : r ≤ pre.length) :
    r + n ≤ pre.length + i.bytes.length ∧
      (r < pre.length ∨ i.IsDouble → r + n < pre.length + i.bytes.length) := by
  cases h with
  | exact hd => exact ⟨by omega, fun hc => by rcases hc with hc | hc <;> [omega; exact absurd hc hd]⟩
  | @double c =>
    have : (MsgItem.double c).bytes.length = 8 := rfl
    omega
  | @entity e hlt h₀ h₁ h₂ =>
    have hb : (MsgItem.entity e).bytes = shortBytes e := if_neg (by omega)
    have hlen : (MsgItem.entity e).bytes.length = 2 := by rw [hb]; rfl
    -- where the item begins are its own two bytes, the second of which is below 128
    rw [hb] at hdata
    have v₀ : (data pre.length).toNat = e % 256 := by
      rw [show data pre.length = _ from slice_at_item hdata (j := 0) (by simp [shortBytes])]
      simp only [shortBytes, getElem_cons_zero, toNat_ofInt]
      omega
    have v₁ : (data (pre.length + 1)).toNat = e / 256 := by
      rw [slice_at_item hdata (j := 1) (by simp [shortBytes])]
      simp only [shortBytes, getElem_cons_succ, getElem_cons_zero, toNat_ofInt, Int.shiftRight_eq_div_pow]
      omega
    have hne : r ≠ pre.length := by
      rintro rfl
      omega
    have hne' : r + 1 ≠ pre.length := by
      intro he
      rw [he] at h₁
      rw [show r + 2 = pre.length + 1 by omega] at h₂
      omega
    omega

/-- **Reading a message with the cursor behind the writer ends behind the writer**, and a double
puts it behind. -/
theorem msgReadItems_behind {items : List MsgItem} {pre : List QByte} {st st' : MsgState} {r : ℕ}
    (h : AtByte st r) (hdata : st.msgReadmsg.contents = pre ++ items.flatMap MsgItem.bytes)
    (hr : r ≤ pre.length) (hd : r < pre.length ∨ ∃ i ∈ items, i.IsDouble)
    (hrun : (msgReadItems (items.map MsgItem.type)).run st = some (items, st')) :
    Failed st' ∨ ∃ r', AtByte st' r' ∧ r' < st.msgReadmsg.cursize := by
  induction items generalizing pre st r with
  | nil =>
    obtain ⟨-, rfl⟩ := Prod.mk.inj (some.inj hrun)
    have hlen := congrArg List.length hdata
    rw [Sizebuf.length_contents, flatMap_nil, append_nil] at hlen
    refine .inr ⟨r, h, ?_⟩
    rcases hd with hd | ⟨i, hi, -⟩
    · omega
    · cases hi
  | cons i items ih =>
    obtain ⟨i', rest, st₁, hcons, hi, hrest⟩ := msgReadItems_cons hrun
    obtain ⟨rfl, rfl⟩ := List.cons.inj hcons
    rcases msgReadItem_inv h hi with hf | ⟨n, rfl, htaken⟩
    · exact .inl (hf.msgReadItems hrest)
    · rw [flatMap_cons] at hdata
      obtain ⟨hle, hlt⟩ := htaken.le hdata hr
      have hdata' : (st.skip n).msgReadmsg.contents = (pre ++ i.bytes) ++ items.flatMap MsgItem.bytes := by
        rw [List.append_assoc, ← hdata, msgReadmsg_skip]
        rfl
      have e := ih (h.skip n) hdata' (by simpa using hle) ?_ hrest
      · rwa [msgReadmsg_skip] at e
      · rw [length_append]
        rcases hd with hd | ⟨j, hj, hdj⟩
        · exact .inl (hlt (.inl hd))
        · rcases mem_cons.1 hj with rfl | hj
          · exact .inl (hlt (.inr hdj))
          · exact .inr ⟨j, hj, hdj⟩

/-! ## Messages come back -/

theorem msgBeginReading_setBuffer (sb : MsgPtr) (prim : Netprim) (st : MsgState) (buf : Sizebuf) :
    (msgBeginReading sb prim (st.setBuffer sb buf)).msgReadmsg =
      { buf with currentbit := 0, packing := .rawBytes, prim := prim } := by
  cases sb <;> rfl

section Message

variable {items : List MsgItem} {buf : Sizebuf}

theorem msgWriteItems_run (hrange : ∀ i ∈ items, i.InRange) (hempty : buf.cursize = 0)
    (hroom : (items.flatMap MsgItem.bytes).length ≤ buf.maxsize) :
    ∃ buf', (msgWriteItems items).run buf = some ((), buf') ∧
      buf'.contents = items.flatMap MsgItem.bytes := by
  refine ⟨_, msgWriteItems_emits hrange buf ?_, ?_⟩
  · show buf.cursize + _ ≤ buf.maxsize
    rwa [hempty, Nat.zero_add]
  · exact (Sizebuf.contents_append _ _).trans (by rw [Sizebuf.contents, hempty]; rfl)

theorem readsBack_of_no_double (sb : MsgPtr) (prim : Netprim) (st : MsgState) (hrange : ∀ i ∈ items, i.InRange)
    (hempty : buf.cursize = 0) (hroom : (items.flatMap MsgItem.bytes).length ≤ buf.maxsize)
    (hd : ∀ i ∈ items, ¬i.IsDouble) : ReadsBack items buf sb prim st := by
  obtain ⟨buf', hwrite, hcontents⟩ := msgWriteItems_run hrange hempty hroom
  have hahead : (msgBeginReading sb prim (st.setBuffer sb buf')).Ahead (items.flatMap MsgItem.bytes ++ []) := by
    have e := msgBeginReading_ahead sb prim (st.setBuffer sb buf')
    rw [append_nil, ← hcontents]
    cases sb <;> exact e
  refine ⟨buf', _, hwrite, msgReadItems_takes hrange hd _ _ hahead, ?_, ?_⟩
  · exact (msgBadread_skip _ _).trans hahead.good
  · show (MsgState.skip _ _).msgReadmsg.currentbit = _
    rw [msgReadmsg_skip, msgBeginReading_setBuffer, ← hcontents, Sizebuf.length_contents]
    simp

theorem not_readsBack_of_double (sb : MsgPtr) (prim : Netprim) (st : MsgState) (hrange : ∀ i ∈ items, i.InRange)
    (hempty : buf.cursize = 0) (hroom : (items.flatMap MsgItem.bytes).length ≤ buf.maxsize)
    (hd : ∃ i ∈ items, i.IsDouble) : ¬ReadsBack items buf sb prim st := by
  rintro ⟨buf', st', hw, hrun, hgood, hend⟩
  obtain ⟨buf₁, hwrite, hcontents⟩ := msgWriteItems_run hrange hempty hroom
  obtain ⟨-, rfl⟩ := Prod.mk.inj (some.inj (hwrite.symm.trans hw))
  have hread := msgBeginReading_setBuffer sb prim st buf₁
  have hat : AtByte (msgBeginReading sb prim (st.setBuffer sb buf₁)) 0 :=
    ⟨by rw [hread], by rw [hread]⟩
  rcases @msgReadItems_behind _ [] _ _ _ hat (by rw [hread]; exact hcontents) le_rfl
    (.inr hd) hrun with hf | ⟨r', hr', hlt⟩
  · rw [hf.2] at hgood
    cases hgood
  · rw [hr'.cursor] at hend
    rw [hread] at hlt
    dsimp only at hlt
    omega

/-- **A message comes back exactly when it has no double.** The buffer starts empty and has room
for the message. -/
theorem readsBack_iff (sb : MsgPtr) (prim : Netprim) (st : MsgState)
    (hrange : ∀ i ∈ items, i.InRange) (hempty : buf.cursize = 0)
    (hroom : (items.flatMap MsgItem.bytes).length ≤ buf.maxsize) :
    ReadsBack items buf sb prim st ↔ ∀ i ∈ items, ¬i.IsDouble := by
  refine ⟨fun h i hi hd => ?_, readsBack_of_no_double sb prim st hrange hempty hroom⟩
  exact not_readsBack_of_double sb prim st hrange hempty hroom ⟨i, hi, hd⟩ h

end Message

/-- A byte, a string and a large entity number, read from `net_message`. -/
theorem readsBack_mixed :
    ReadsBack [.byte 200, .string [65, 66], .entity 0x12345] (bufferOf [] 16) .netMessage ⟨0, 0, 0⟩
      ⟨bufferOf [] 0, bufferOf [] 0, .other, true⟩ :=
  (readsBack_iff _ _ _ (by decide) rfl (by decide)).2 (by decide)

/-- A message of one double does not come back. -/
theorem double_not_readsBack :
    ¬ReadsBack [.double 0x3ff0000000000000] (bufferOf [] 8) .netMessage ⟨0, 0, 0⟩
      ⟨bufferOf [] 0, bufferOf [] 0, .other, false⟩ :=
  not_readsBack_of_double _ _ _ (by decide) rfl (by decide) (by decide)

end FteQuake
