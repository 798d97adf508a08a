import FteQuake.Common.MsgRead
import FteQuake.Lib.BitBuffer

/-!
# Bit-packed messages

`MSG_WriteBits` and `MSG_ReadBits` on the two packings that are configured.

With `SZ_RAWBITS` the writer stores one bit after the other, and whole bytes when the cursor is at
the start of a byte. The test for the latter looks at the width of the field and not at the bits
that are left of it, so a field of eight bits or more that ends inside a byte is written to the end
of that byte (`msgWriteRawBits_eq`). With `SZ_RAWBYTES` a field takes one, two or four bytes, and
the reader's test for the end of the buffer refuses the field that ends there.

`bitsReadBack_iff` says for both which messages come back: with `SZ_RAWBITS` those whose fields of
eight bits or more end at a byte, with `SZ_RAWBYTES` those that are empty or end with a `-1` of
32 bits, which is what the reader returns for a refused field.
-/

namespace FteQuake

open StreamProgram MsgState Sizebuf BitBuffer List Option BitVec Mem

/-! ## The writers -/

/-- `MSG_WriteRawBytes`. -/
def msgWriteRawBytes (value : BitVec 32) (bits : ℕ) : MsgWriter Unit :=
  if bits ≤ 8 then szWrite [value.setWidth 8]
  else if bits ≤ 16 then szWrite [value.setWidth 8, (value.sshiftRight 8).setWidth 8]
  else szWrite [value.setWidth 8, (value.sshiftRight 8).setWidth 8,
    (value.sshiftRight 16).setWidth 8, (value.sshiftRight 24).setWidth 8]

/-- The loop of `MSG_WriteRawBits`, from bit `i` of the value on. -/
def msgWriteRawBitsLoop (value : BitVec 32) (bits i : ℕ) (msg : Sizebuf) : Sizebuf :=
  if i < bits then
    -- `*msg->data[msg->currentbit>>3] |= ((value>>i)&1) << (msg->currentbit & 7)`
    let putBit (msg : Sizebuf) : Sizebuf :=
      let p := msg.currentbit >>> 3
      let bit : QByte := ((value.sshiftRight i &&& 1) <<< (msg.currentbit &&& 7)).setWidth 8
      { msg with data := msg.data.store p (msg.data p ||| bit), currentbit := msg.currentbit + 1 }
    if msg.currentbit &&& 7 = 0 then
      let msg := { msg with cursize := msg.cursize + 1 }
      if bits ≥ 8 then
        let byte : QByte := (value.sshiftRight i &&& 0xff).setWidth 8
        msgWriteRawBitsLoop value bits (i + 8)
          { msg with
            data := msg.data.store (msg.currentbit >>> 3) byte
            currentbit := msg.currentbit + 8 }
      else
        msgWriteRawBitsLoop value bits (i + 1)
          (putBit { msg with data := msg.data.store (msg.currentbit >>> 3) 0 })
    else msgWriteRawBitsLoop value bits (i + 1) (putBit msg)
  else msg
termination_by bits - i

/-- `MSG_WriteRawBits`. It does not look at `maxsize`. -/
def msgWriteRawBits (value : BitVec 32) (bits : ℕ) (msg : Sizebuf) : Sizebuf :=
  msgWriteRawBitsLoop value bits 0 msg

/-- `MSG_WriteBits`. A negative width shifts by a negative count, which is undefined. Without
`HUFFNETWORK`, as configured, Huffman packing is an error like bad packing. -/
def msgWriteBits (value : BitVec 32) (bits : Int) : MsgWriter Unit := fun msg =>
  if bits = 0 ∨ bits < -31 ∨ bits > 32 then none
  else if bits < 0 then none
  else
    match msg.packing with
    | .bad | .huffman => none
    | .rawBytes => msgWriteRawBytes value bits.toNat msg
    | .rawBits => some ((), msgWriteRawBits value bits.toNat msg)

/-! ## Storing bits -/

/-- The bits of an `int`, its sign from bit 32 on. -/
def intBits (value : BitVec 32) : Mem Bool := fun k => (value.sshiftRight k).getLsbD 0

theorem intBits_of_lt (value : BitVec 32) {k : ℕ} (h : k < 32) : intBits value k = value.getLsbD k := by
  rw [intBits, getLsbD_sshiftRight]
  simp [h]

namespace Sizebuf

/-- The buffer with bits stored from its cursor on. -/
def pushBits (msg : Sizebuf) (bs : List Bool) : Sizebuf :=
  { msg with
    data := putBits msg.data msg.currentbit bs
    currentbit := msg.currentbit + bs.length
    cursize := (msg.currentbit + bs.length + 7) / 8 }

/-- The bytes in use are those that hold bits, and the bits after the cursor are clear. -/
structure BitsReady (msg : Sizebuf) : Prop where
  cursize : msg.cursize = (msg.currentbit + 7) / 8
  clear : Clear msg.data msg.currentbit

theorem BitsReady.pushBits {msg : Sizebuf} (h : msg.BitsReady) (bs : List Bool) :
    (msg.pushBits bs).BitsReady :=
  ⟨rfl, h.clear.putBits bs⟩

theorem BitsReady.pushBits_nil {msg : Sizebuf} (h : msg.BitsReady) : msg.pushBits [] = msg := by
  simp [Sizebuf.pushBits, putBits, ← h.cursize]

theorem pushBits_append (msg : Sizebuf) (bs cs : List Bool) :
    msg.pushBits (bs ++ cs) = (msg.pushBits bs).pushBits cs := by
  simp [pushBits, putBits_append, Nat.add_assoc]

end Sizebuf

theorem and_seven (n : ℕ) : n &&& 7 = n % 8 := Nat.and_two_pow_sub_one_eq_mod n 3

theorem shiftRight_three (n : ℕ) : n >>> 3 = n / 8 := Nat.shiftRight_eq_div_pow n 3

/-- The bit that the loop stores. -/
theorem setWidth_bit (value : BitVec 32) (i r : ℕ) :
    ((value.sshiftRight i &&& 1) <<< r).setWidth 8 =
      (BitVec.ofBool (intBits value i)).setWidth 8 <<< r := by
  refine eq_of_getLsbD_eq fun k hk => ?_
  rw [getLsbD_setWidth, getLsbD_shiftLeft, getLsbD_shiftLeft, getLsbD_and, getLsbD_setWidth, getLsbD_ofBool, intBits]
  rcases Nat.eq_zero_or_pos (k - r) with h | h
  · simp [h, hk, show k < 32 by omega]
  · simp [show k - r ≠ 0 by omega, getLsbD_one]

/-- One round of the loop that stores a single bit. -/
theorem msgWriteRawBitsLoop_bit {value : BitVec 32} {bits i : ℕ} {msg : Sizebuf}
    (h : msg.BitsReady) (hi : i < bits) (hbit : bits < 8 ∨ msg.currentbit % 8 ≠ 0) :
    msgWriteRawBitsLoop value bits i msg =
      msgWriteRawBitsLoop value bits (i + 1) (msg.pushBits [intBits value i]) := by
  have hc := h.cursize
  rw [msgWriteRawBitsLoop, if_pos hi]
  simp only [and_seven, shiftRight_three]
  by_cases h0 : msg.currentbit % 8 = 0
  · rw [if_pos h0, if_neg (by omega)]
    congr 1
    simp only [Sizebuf.pushBits, putBits, putBit, if_pos h0, setWidth_bit, length_singleton,
      store_self, store_store, Sizebuf.mk.injEq, true_and, and_true]
    omega
  · rw [if_neg h0]
    congr 1
    simp only [Sizebuf.pushBits, putBits, putBit, if_neg h0, setWidth_bit, length_singleton]
    congr 1
    omega

/-- One round of the loop that stores a byte. -/
theorem msgWriteRawBitsLoop_byte {value : BitVec 32} {bits i : ℕ} {msg : Sizebuf}
    (h : msg.BitsReady) (hi : i < bits) (hbits : 8 ≤ bits) (h0 : msg.currentbit % 8 = 0) :
    msgWriteRawBitsLoop value bits i msg =
      msgWriteRawBitsLoop value bits (i + 8) (msg.pushBits ((intBits value).slice i 8)) := by
  have hc := h.cursize
  have hbyte : (intBits value).slice i 8 = Mem.slice
      ((value.sshiftRight i &&& 0xff).setWidth 8 : QByte).getLsbD 0 8 := by
    refine ext_getElem (by simp) fun k hk _ => ?_
    rw [length_slice] at hk
    have hff : (0xff : BitVec 32).getLsbD k = true := by
      rw [BitVec.getLsbD, show (0xff : BitVec 32).toNat = 2 ^ 8 - 1 from rfl,
        Nat.testBit_two_pow_sub_one, decide_eq_true hk]
    rw [getElem_slice, getElem_slice, Nat.zero_add, intBits, getLsbD_sshiftRight,
      getLsbD_setWidth, getLsbD_and, getLsbD_sshiftRight, hff]
    simp [hk, show k < 32 by omega]
  rw [msgWriteRawBitsLoop, if_pos hi]
  simp only [and_seven, shiftRight_three]
  rw [if_pos h0, if_pos hbits]
  congr 1
  rw [hbyte, Sizebuf.pushBits, putBits_byte _ h0, length_slice]
  congr 1
  omega

/-- **The loop stores the bits that are left of the field**, and more of the value after them when
the field is written in bytes and does not end at one. -/
theorem msgWriteRawBitsLoop_eq {value : BitVec 32} {bits i : ℕ} {msg : Sizebuf} (h : msg.BitsReady)
    (hi : 8 ≤ bits → i ≤ bits → (8 - msg.currentbit % 8) % 8 ≤ bits - i) :
    ∃ n, msgWriteRawBitsLoop value bits i msg = msg.pushBits ((intBits value).slice i n) ∧
      bits - i ≤ n ∧ (bits ≤ i → n = 0) ∧ (bits < 8 → n = bits - i) ∧
      (8 ≤ bits → i ≤ bits → (msg.currentbit + n) % 8 = 0 ∧ n < bits - i + 8) := by
  induction hk : bits - i using Nat.strongRecOn generalizing i msg with
  | ind k ih =>
  by_cases hib : i < bits
  · by_cases hbit : bits < 8 ∨ msg.currentbit % 8 ≠ 0
    · have hc : (msg.pushBits [intBits value i]).currentbit = msg.currentbit + 1 := rfl
      obtain ⟨n, hn, h₁, h₂, h₃, h₄⟩ := ih (bits - (i + 1)) (by omega)
        (h.pushBits [intBits value i]) (i := i + 1) (by rw [hc]; omega) rfl
      refine ⟨n + 1, ?_, by omega, by omega, by omega, by rw [hc] at h₄; omega⟩
      rw [msgWriteRawBitsLoop_bit h hib hbit, hn, ← Sizebuf.pushBits_append, slice_succ]
      rfl
    · have hc : (msg.pushBits ((intBits value).slice i 8)).currentbit = msg.currentbit + 8 := by
        simp [Sizebuf.pushBits]
      obtain ⟨n, hn, h₁, h₂, h₃, h₄⟩ := ih (bits - (i + 8)) (by omega)
        (h.pushBits ((intBits value).slice i 8)) (i := i + 8) (by rw [hc]; omega) rfl
      refine ⟨8 + n, ?_, by omega, by omega, by omega, by rw [hc] at h₄; omega⟩
      rw [msgWriteRawBitsLoop_byte h hib (by omega) (by omega), hn, ← Sizebuf.pushBits_append,
        ← slice_add]
  · refine ⟨0, ?_, by omega, by omega, by omega, by omega⟩
    rw [msgWriteRawBitsLoop, if_neg hib, slice_zero, h.pushBits_nil]

/-- **What `MSG_WriteRawBits` writes**: the bits of the field, exactly unless a field of eight bits
or more ends inside a byte. -/
theorem msgWriteRawBits_eq (value : BitVec 32) (bits : ℕ) {msg : Sizebuf} (h : msg.BitsReady) :
    ∃ n, msgWriteRawBits value bits msg = msg.pushBits ((intBits value).slice 0 n) ∧ bits ≤ n ∧
      (n = bits ↔ 8 ≤ bits → (msg.currentbit + bits) % 8 = 0) := by
  obtain ⟨n, hn, h₁, -, h₃, h₄⟩ := @msgWriteRawBitsLoop_eq value bits 0 msg h (by omega)
  exact ⟨n, hn, by omega, by omega⟩

/-! ## Reading bits -/

theorem getLsbD_rawBitsLoop (data : Mem QByte) (n i c : ℕ) (mask : BitVec 32) {k : ℕ} (hk : k < 32) :
    (rawBitsLoop data n i c mask).getLsbD k =
      (mask.getLsbD k || (decide (i ≤ k) && decide (k < i + n) && bitAt data (c + (k - i)))) := by
  induction n generalizing i c mask with
  | zero => simp [rawBitsLoop, show ¬(i ≤ k ∧ k < i) by omega]
  | succ n ih =>
    have hbit : ((((data (c / 8)).setWidth 32 >>> (c % 8)) &&& 1) <<< i).getLsbD k =
        (decide (k = i) && bitAt data c) := by
      rw [getLsbD_shiftLeft, getLsbD_and, getLsbD_ushiftRight, getLsbD_setWidth, bitAt]
      rcases Nat.lt_trichotomy k i with h | rfl | h
      · simp [h, h.ne]
      · simp [hk, show c % 8 < 32 by omega]
      · simp [getLsbD_one, show k - i ≠ 0 by omega, h.ne']
    rw [rawBitsLoop, ih, getLsbD_or, and_seven, shiftRight_three, hbit]
    rcases Nat.lt_trichotomy k i with h | rfl | h
    · simp [h.ne, show ¬i + 1 ≤ k by omega, show ¬i ≤ k by omega]
    · simp
    · simp [h.ne', show i + 1 ≤ k by omega, show i ≤ k by omega,
        show c + 1 + (k - (i + 1)) = c + (k - i) by omega, show i + 1 + n = i + (n + 1) by omega]

/-- A field to send: a value and a width. -/
abbrev BitField := BitVec 32 × ℕ

namespace BitField

/-- The value modulo `2^width`. -/
def value (f : BitField) : BitVec 32 := BitVec.ofNat 32 (f.1.toNat % 2 ^ f.2)

/-- The bits of the field. -/
def bits (f : BitField) : List Bool := (intBits f.1).slice 0 f.2

@[simp] theorem length_bits (f : BitField) : f.bits.length = f.2 := length_slice _ _ _

theorem getLsbD_value (f : BitField) {k : ℕ} (hk : k < 32) :
    f.value.getLsbD k = (decide (k < f.2) && f.1.getLsbD k) := by
  rw [value, getLsbD_ofNat, Nat.testBit_mod_two_pow, decide_eq_true hk, Bool.true_and]
  rfl

/-- The bits of a field, read, are its value. -/
theorem rawBitsLoop_eq_value {f : BitField} {data : Mem QByte} {c : ℕ}
    (h : (bitAt data).slice c f.2 = f.bits) : rawBitsLoop data f.2 0 c 0 = f.value := by
  refine eq_of_getLsbD_eq fun k hk => ?_
  rw [getLsbD_rawBitsLoop data _ _ _ _ hk, getLsbD_value f hk]
  by_cases hkf : k < f.2
  · have e := getElem_of_eq h (i := k) (by simpa using hkf)
    rw [getElem_slice] at e
    simp only [bits, getElem_slice, Nat.zero_add, intBits_of_lt _ hk] at e
    simp [hkf, e]
  · simp [hkf]

end BitField

/-- The number of bits that the fields take. -/
def totalBits (fields : List BitField) : ℕ := (fields.map Prod.snd).sum

@[simp] theorem totalBits_cons (f : BitField) (fields : List BitField) :
    totalBits (f :: fields) = f.2 + totalBits fields := by
  simp [totalBits]

/-- Writing fields. -/
def msgWriteFields (fields : List BitField) : MsgWriter Unit :=
  fields.forM fun f => msgWriteBits f.1 f.2

/-- Reading fields of given widths. -/
def msgReadFields (widths : List ℕ) : MsgReader (List (BitVec 32)) :=
  widths.mapM fun n : ℕ => msgReadBits (n : Int)

/-- **The fields come back**: written to `buf` and read from where the writing began, the values are
the same modulo their widths, the cursor of the reader ends where the writer's does (for whole
bytes, at the end of the buffer), and the buffer has grown by the byte ceiling of the widths. -/
def BitsReadBack (fields : List BitField) (buf : Sizebuf) (sb : MsgPtr) (st : MsgState) : Prop :=
  ∃ buf' st', (msgWriteFields fields).run buf = some ((), buf') ∧
    (msgReadFields (fields.map Prod.snd)).run
      (st.setBuffer sb { buf' with currentbit := 8 * buf.cursize }) =
        some (fields.map BitField.value, st') ∧
    st'.msgReadmsg.currentbit =
      (if buf.packing = .rawBits then buf'.currentbit else 8 * buf'.cursize) ∧
    buf'.cursize = buf.cursize + (totalBits fields + 7) / 8

/-! ## Fields of bits -/

/-- Every field of eight bits or more ends at a byte, when the first begins at bit `c`. -/
def EndAtBytes : (c : ℕ) → List BitField → Prop
  | _, [] => True
  | c, f :: fields => (8 ≤ f.2 → (c + f.2) % 8 = 0) ∧ EndAtBytes (c + f.2) fields

theorem msgWriteFields_cons (f : BitField) (fields : List BitField) :
    msgWriteFields (f :: fields) = msgWriteBits f.1 f.2 >>= fun _ => msgWriteFields fields := rfl

theorem msgWriteFields_rawBits {fields : List BitField} (hw : ∀ f ∈ fields, 1 ≤ f.2 ∧ f.2 ≤ 32)
    {msg : Sizebuf} (hp : msg.packing = .rawBits) (h : msg.BitsReady) :
    ∃ bs, (msgWriteFields fields).run msg = some ((), msg.pushBits bs) ∧
      totalBits fields ≤ bs.length ∧
      (bs.length = totalBits fields ↔ EndAtBytes msg.currentbit fields) ∧
      (EndAtBytes msg.currentbit fields → bs = fields.flatMap BitField.bits) := by
  induction fields generalizing msg with
  | nil => exact ⟨[], by rw [h.pushBits_nil]; rfl, le_rfl, ⟨fun _ => trivial, fun _ => rfl⟩,
      fun _ => rfl⟩
  | cons f fields ih =>
    have hf := hw f (by simp)
    obtain ⟨n, hn, hle, hiff⟩ := msgWriteRawBits_eq f.1 f.2 h
    have hwrite : (msgWriteBits f.1 f.2).run msg = some ((), msg.pushBits ((intBits f.1).slice 0 n)) := by
      show msgWriteBits f.1 f.2 msg = _
      rw [← hn, msgWriteBits, if_neg (by omega), if_neg (by omega), hp, Int.toNat_natCast]
    obtain ⟨bs, hbs, hle', hiff', heq⟩ := @ih (fun g hg => hw g (by simp [hg]))
      (msg.pushBits ((intBits f.1).slice 0 n)) hp (h.pushBits _)
    have hc : (msg.pushBits ((intBits f.1).slice 0 n)).currentbit = msg.currentbit + n := by
      simp [Sizebuf.pushBits]
    rw [hc] at hiff' heq
    refine ⟨(intBits f.1).slice 0 n ++ bs, ?_, ?_, ?_, ?_⟩
    · rw [msgWriteFields_cons, StateT.run_bind, hwrite, Sizebuf.pushBits_append]
      exact hbs
    · rw [List.length_append, length_slice, totalBits_cons]
      omega
    · rw [List.length_append, length_slice, totalBits_cons, EndAtBytes, ← hiff]
      constructor
      · intro e
        obtain rfl : n = f.2 := by omega
        exact ⟨rfl, hiff'.1 (by omega)⟩
      · rintro ⟨rfl, e⟩
        rw [hiff'.2 e]
    · rintro ⟨e, e'⟩
      obtain rfl := hiff.2 e
      rw [heq e', flatMap_cons]
      rfl

theorem msgReadFields_cons (n : ℕ) (widths : List ℕ) : msgReadFields (n :: widths) =
    msgReadBits (n : Int) >>= fun v => msgReadFields widths >>= fun vs => pure (v :: vs) := by
  rw [msgReadFields, mapM_cons]
  rfl

theorem totalBits_eq_length (fields : List BitField) :
    totalBits fields = (fields.flatMap BitField.bits).length := by
  induction fields with
  | nil => rfl
  | cons f fields ih => rw [totalBits_cons, flatMap_cons, List.length_append, ih, BitField.length_bits]

theorem msgReadBits_rawBits {n : ℕ} {st : MsgState} (hp : st.msgReadmsg.packing = .rawBits)
    (hroom : st.msgReadmsg.currentbit + n ≤ 8 * st.msgReadmsg.cursize) :
    (msgReadBits n).run st = some (rawBitsLoop st.msgReadmsg.data n 0 st.msgReadmsg.currentbit 0,
      st.setCurrentbit (st.msgReadmsg.currentbit + n)) := by
  have hend : ¬st.msgReadmsg.currentbit + n > st.msgReadmsg.cursize <<< 3 := by
    rw [Nat.shiftLeft_eq]
    omega
  show msgReadBits n st = _
  simp only [msgReadBits, hp, Int.natAbs_natCast, msgReadRawBits, if_neg hend, Prod.map, id]
  rw [if_neg (by omega)]

/-- The fields are read one after the other; they are right where the bits are. -/
theorem msgReadFields_rawBits {fields : List BitField} {st : MsgState} (hp : st.msgReadmsg.packing = .rawBits)
    (hroom : st.msgReadmsg.currentbit + totalBits fields ≤ 8 * st.msgReadmsg.cursize) :
    ∃ vs, (msgReadFields (fields.map Prod.snd)).run st =
        some (vs, st.setCurrentbit (st.msgReadmsg.currentbit + totalBits fields)) ∧
      ((bitAt st.msgReadmsg.data).slice st.msgReadmsg.currentbit (totalBits fields) =
        fields.flatMap BitField.bits → vs = fields.map BitField.value) := by
  induction fields generalizing st with
  | nil => exact ⟨[], by rw [totalBits, map_nil, sum_nil, Nat.add_zero, setCurrentbit,
      setReadmsg_msgReadmsg]; rfl, fun _ => rfl⟩
  | cons f fields ih =>
    rw [totalBits_cons] at hroom
    have hread := msgReadBits_rawBits (n := f.2) hp (by omega)
    have hmsg : (st.setCurrentbit (st.msgReadmsg.currentbit + f.2)).msgReadmsg =
        { st.msgReadmsg with currentbit := st.msgReadmsg.currentbit + f.2 } :=
      msgReadmsg_setReadmsg _ _
    obtain ⟨vs, hvs, heq⟩ := @ih (st.setCurrentbit (st.msgReadmsg.currentbit + f.2)) (by rw [hmsg]; exact hp)
      (by rw [hmsg]; dsimp only; omega)
    rw [hmsg] at hvs heq
    dsimp only at hvs heq
    refine ⟨rawBitsLoop st.msgReadmsg.data f.2 0 st.msgReadmsg.currentbit 0 :: vs, ?_, ?_⟩
    · rw [map_cons, msgReadFields_cons, StateT.run_bind, hread, bind_eq_bind, bind_some, StateT.run_bind, hvs,
        totalBits_cons, ← Nat.add_assoc, setCurrentbit, hmsg, setCurrentbit, setReadmsg_setReadmsg]
      rfl
    · intro e
      rw [totalBits_cons, flatMap_cons, ← f.length_bits] at e
      rw [totalBits_eq_length] at e heq
      obtain ⟨e₁, e₂⟩ := slice_eq_append e
      rw [f.length_bits] at e₁ e₂
      rw [map_cons, BitField.rawBitsLoop_eq_value e₁, heq e₂]

theorem endAtBytes_congr {c d : ℕ} (h : c % 8 = d % 8) (fields : List BitField) :
    EndAtBytes c fields ↔ EndAtBytes d fields := by
  induction fields generalizing c d with
  | nil => exact Iff.rfl
  | cons f fields ih =>
    rw [EndAtBytes, EndAtBytes, ih (show (c + f.2) % 8 = (d + f.2) % 8 by omega)]
    exact and_congr_left fun _ => imp_congr_right fun _ => by omega

/-- **With `SZ_RAWBITS`** the fields come back when those of eight bits or more end at a byte. -/
theorem bitsReadBack_rawBits_iff {fields : List BitField} {buf : Sizebuf} (hp : buf.packing = .rawBits)
    (hc : buf.currentbit = 8 * buf.cursize) (hw : ∀ f ∈ fields, 1 ≤ f.2 ∧ f.2 ≤ 32) (sb : MsgPtr) (st : MsgState) :
    BitsReadBack fields buf sb st ↔ EndAtBytes 0 fields := by
  have hready : buf.BitsReady := ⟨by omega, clear_of_mod_eq_zero (by omega)⟩
  obtain ⟨bs, hwrite, hle, hiff, heq⟩ := msgWriteFields_rawBits hw hp hready
  rw [endAtBytes_congr (show buf.currentbit % 8 = 0 % 8 by omega)] at hiff heq
  -- the globals when reading begins
  have hmsg : (st.setBuffer sb { buf.pushBits bs with currentbit := 8 * buf.cursize }).msgReadmsg =
      { buf.pushBits bs with currentbit := 8 * buf.cursize } := msgReadmsg_setReadmsg _ _
  obtain ⟨vs, hread, hvs⟩ := @msgReadFields_rawBits fields
    (st.setBuffer sb { buf.pushBits bs with currentbit := 8 * buf.cursize })
    (by rw [hmsg]; exact hp) (by rw [hmsg]; simp only [Sizebuf.pushBits]; omega)
  rw [hmsg] at hread hvs
  dsimp only at hread hvs
  constructor
  · rintro ⟨buf', st', hwrite', hread', hend, -⟩
    obtain ⟨-, rfl⟩ := Prod.mk.inj (some.inj (hwrite.symm.trans hwrite'))
    obtain ⟨-, rfl⟩ := Prod.mk.inj (some.inj (hread.symm.trans hread'))
    rw [if_pos hp, setCurrentbit, msgReadmsg_setReadmsg] at hend
    refine hiff.1 ?_
    simp only [Sizebuf.pushBits] at hend
    omega
  · intro hends
    obtain rfl := heq hends
    have hlen := totalBits_eq_length fields
    have hdata := slice_putBits hready.clear (fields.flatMap BitField.bits)
    rw [← hlen, hc] at hdata
    rw [hvs (by simpa only [Sizebuf.pushBits, hc] using hdata)] at hread
    refine ⟨_, _, hwrite, hread, ?_, ?_⟩
    · rw [if_pos hp, setCurrentbit, msgReadmsg_setReadmsg]
      simp only [Sizebuf.pushBits]
      omega
    · simp only [Sizebuf.pushBits]
      omega

/-! ## Fields of bytes -/

/-- The bytes of a field of 8, 16 or 32 bits. -/
def BitField.bytes (f : BitField) : List QByte :=
  if f.2 ≤ 8 then [f.1.setWidth 8]
  else if f.2 ≤ 16 then [f.1.setWidth 8, (f.1.sshiftRight 8).setWidth 8]
  else [f.1.setWidth 8, (f.1.sshiftRight 8).setWidth 8, (f.1.sshiftRight 16).setWidth 8,
    (f.1.sshiftRight 24).setWidth 8]

/-- The field is one of the widths that are whole bytes. -/
def BitField.Whole (f : BitField) : Prop := f.2 = 8 ∨ f.2 = 16 ∨ f.2 = 32

namespace BitField

theorem bytes_eight (v : BitVec 32) : bytes (v, 8) = [v.setWidth 8] := if_pos le_rfl

theorem bytes_sixteen (v : BitVec 32) :
    bytes (v, 16) = [v.setWidth 8, (v.sshiftRight 8).setWidth 8] := by
  rw [bytes, if_neg (by simp), if_pos (by simp)]

theorem bytes_thirtyTwo (v : BitVec 32) : bytes (v, 32) = [v.setWidth 8,
    (v.sshiftRight 8).setWidth 8, (v.sshiftRight 16).setWidth 8, (v.sshiftRight 24).setWidth 8] := by
  rw [bytes, if_neg (by simp), if_neg (by simp)]

theorem length_bytes {f : BitField} (h : f.Whole) : f.bytes.length = f.2 / 8 := by
  obtain ⟨v, w⟩ := f
  obtain rfl | rfl | rfl : w = 8 ∨ w = 16 ∨ w = 32 := h
  · simp [bytes_eight]
  · simp [bytes_sixteen]
  · simp [bytes_thirtyTwo]

theorem length_flatMap_bytes {fields : List BitField} (h : ∀ f ∈ fields, f.Whole) :
    8 * (fields.flatMap bytes).length = totalBits fields := by
  induction fields with
  | nil => rfl
  | cons f fields ih =>
    have hf := h f (by simp)
    have hlen := length_bytes hf
    rw [flatMap_cons, List.length_append, totalBits_cons, ← ih fun g hg => h g (by simp [hg])]
    rcases hf with hf | hf | hf <;> omega

end BitField

variable {f : BitField} {fields : List BitField}

theorem msgWriteBits_rawBytes (hf : f.Whole) {msg : Sizebuf}
    (hp : msg.packing = .rawBytes) (hroom : msg.cursize + f.bytes.length ≤ msg.maxsize) :
    (msgWriteBits f.1 f.2).run msg = some ((), msg.append f.bytes) := by
  have hwidth : 1 ≤ f.2 ∧ f.2 ≤ 32 := by rcases hf with hf | hf | hf <;> omega
  show msgWriteBits f.1 f.2 msg = _
  rw [msgWriteBits, if_neg (by omega), if_neg (by omega), hp, Int.toNat_natCast]
  rw [← szWrite_run_of_fits hroom, BitField.bytes]
  simp only [msgWriteRawBytes]
  split
  · rfl
  · split <;> rfl

theorem msgWriteFields_rawBytes (hf : ∀ f ∈ fields, f.Whole) {msg : Sizebuf} (hp : msg.packing = .rawBytes)
    (hroom : msg.cursize + (fields.flatMap BitField.bytes).length ≤ msg.maxsize) :
    (msgWriteFields fields).run msg = some ((), msg.append (fields.flatMap BitField.bytes)) := by
  induction fields generalizing msg with
  | nil =>
    have e : msg.append [] = msg := sink.push_nil msg
    rw [flatMap_nil, e]
    rfl
  | cons f fields ih =>
    rw [flatMap_cons, List.length_append] at hroom
    have e : msg.append (f.bytes ++ fields.flatMap BitField.bytes) =
        (msg.append f.bytes).append (fields.flatMap BitField.bytes) := sink.push_append msg _ _
    rw [msgWriteFields_cons, StateT.run_bind, msgWriteBits_rawBytes (hf f (by simp)) hp (by omega),
      bind_eq_bind, bind_some, flatMap_cons, e]
    exact ih (fun g hg => hf g (by simp [hg])) hp
      (by rw [Sizebuf.cursize_append, Sizebuf.maxsize_append]; omega)

theorem setWidth_sshiftRight (v : BitVec 32) {k : ℕ} (hk : k ≤ 24) :
    ((v.sshiftRight k).setWidth 8 : QByte) = (v >>> k).setWidth 8 := by
  refine eq_of_getLsbD_eq fun i hi => ?_
  rw [getLsbD_setWidth, getLsbD_setWidth, getLsbD_sshiftRight,
    getLsbD_ushiftRight, if_pos (by omega), decide_eq_false (by omega : ¬32 ≤ i),
    Bool.not_false, Bool.true_and]

/-- The value of a field from its bytes. -/
theorem msgReadRawBytes_value (hf : f.Whole) {st : MsgState} {r : ℕ} (hc : st.msgReadmsg.currentbit = 8 * r)
    (hdata : st.msgReadmsg.data.slice r f.bytes.length = f.bytes) :
    msgReadRawBytes f.2 st =
      if r + f.2 / 8 ≥ st.msgReadmsg.cursize then
        (-1, { st.setCurrentbit (8 * r + f.2) with msgBadread := true })
      else (f.value, st.setCurrentbit (8 * r + f.2)) := by
  have hr : 8 * r / 8 = r := by omega
  simp only [msgReadRawBytes, shiftRight_three, hc, hr]
  by_cases hend : r + f.2 / 8 ≥ st.msgReadmsg.cursize
  · rw [if_pos hend, if_pos hend]
  rw [if_neg hend, if_neg hend]
  have hget := slice_eq_iff.1 hdata
  obtain ⟨v, w⟩ := f
  have hv := v.isLt
  obtain rfl | rfl | rfl : w = 8 ∨ w = 16 ∨ w = 32 := hf
  · simp only [BitField.bytes_eight] at hget
    rw [if_pos (by simp), show st.msgReadmsg.data r = v.setWidth 8 from hget 0 (by simp)]
    refine Prod.ext (eq_of_toNat_eq ?_) rfl
    simp only [BitField.value, toNat_setWidth, toNat_ofNat]
  · simp only [BitField.bytes_sixteen] at hget
    rw [if_neg (by simp), if_pos (by simp),
      show st.msgReadmsg.data r = v.setWidth 8 from hget 0 (by simp),
      show st.msgReadmsg.data (r + 1) = (v.sshiftRight 8).setWidth 8 from hget 1 (by simp),
      setWidth_sshiftRight v (by omega)]
    refine Prod.ext (eq_of_toNat_eq ?_) rfl
    simp only [BitField.value, toNat_add, toNat_shiftLeft, toNat_setWidth,
      toNat_ushiftRight, toNat_ofNat, Nat.shiftLeft_eq, Nat.shiftRight_eq_div_pow]
    omega
  · simp only [BitField.bytes_thirtyTwo] at hget
    rw [if_neg (by simp), if_neg (by simp), if_pos (by simp),
      show st.msgReadmsg.data r = v.setWidth 8 from hget 0 (by simp),
      show st.msgReadmsg.data (r + 1) = (v.sshiftRight 8).setWidth 8 from hget 1 (by simp),
      show st.msgReadmsg.data (r + 2) = (v.sshiftRight 16).setWidth 8 from hget 2 (by simp),
      show st.msgReadmsg.data (r + 3) = (v.sshiftRight 24).setWidth 8 from hget 3 (by simp),
      setWidth_sshiftRight v (by omega), setWidth_sshiftRight v (by omega),
      setWidth_sshiftRight v (by omega)]
    refine Prod.ext (eq_of_toNat_eq ?_) rfl
    simp only [BitField.value, toNat_add, toNat_shiftLeft, toNat_setWidth,
      toNat_ushiftRight, toNat_ofNat, Nat.shiftLeft_eq, Nat.shiftRight_eq_div_pow]
    omega

theorem msgReadBits_rawBytes {n : ℕ} {st : MsgState} (hp : st.msgReadmsg.packing = .rawBytes) :
    (msgReadBits n).run st = some (msgReadRawBytes n st) := by
  show msgReadBits n st = _
  simp only [msgReadBits, hp, Int.natAbs_natCast, Prod.map, id]
  rw [if_neg (by omega)]

/-- What the reader returns for a refused field is the value of one field only. -/
theorem BitField.value_eq_neg_one_iff (hf : f.Whole) :
    f.value = -1 ↔ f = (0xffffffff, 32) := by
  obtain ⟨v, w⟩ := f
  have hv := v.isLt
  rw [value, ← toNat_inj, toNat_ofNat, Prod.mk.injEq, ← toNat_inj, show (-1 : BitVec 32).toNat = 0xffffffff from rfl,
    show (0xffffffff : BitVec 32).toNat = 0xffffffff from rfl]
  obtain rfl | rfl | rfl : w = 8 ∨ w = 16 ∨ w = 32 := hf <;> dsimp only <;> omega

/-- **The fields before the last are right, the last is refused.** -/
theorem msgReadFields_rawBytes {fields : List BitField} (hf : ∀ f ∈ fields, f.Whole) {pre : List QByte} {st : MsgState}
    (hp : st.msgReadmsg.packing = .rawBytes) (hc : st.msgReadmsg.currentbit = 8 * pre.length)
    (hdata : st.msgReadmsg.contents = pre ++ fields.flatMap BitField.bytes) :
    ∃ st', (msgReadFields (fields.map Prod.snd)).run st =
        some (fields.dropLast.map BitField.value ++ fields.getLast?.toList.map fun _ => -1, st') ∧
      st'.msgReadmsg.currentbit = 8 * st.msgReadmsg.cursize := by
  have hlen := congrArg List.length hdata
  rw [Sizebuf.length_contents] at hlen
  induction fields generalizing pre st with
  | nil =>
    refine ⟨st, rfl, ?_⟩
    rw [flatMap_nil, append_nil] at hlen
    omega
  | cons f fields ih =>
    have hlenf := BitField.length_bytes (hf f (by simp))
    rw [flatMap_cons] at hdata hlen
    rw [List.length_append, List.length_append] at hlen
    have hslice : st.msgReadmsg.data.slice pre.length f.bytes.length = f.bytes := by
      rw [Sizebuf.contents, hlen, ← List.length_append] at hdata
      have h := (slice_eq_append hdata).2
      rw [Nat.zero_add, List.length_append] at h
      exact (slice_eq_append h).1
    have hvalue := msgReadRawBytes_value (hf f (by simp)) hc hslice
    have hmsg : (st.setCurrentbit (8 * pre.length + f.2)).msgReadmsg =
        { st.msgReadmsg with currentbit := 8 * pre.length + f.2 } := msgReadmsg_setReadmsg _ _
    have hbits : 8 * (f.2 / 8) = f.2 := by rcases hf f (by simp) with h | h | h <;> rw [h]
    rw [map_cons, msgReadFields_cons, StateT.run_bind, msgReadBits_rawBytes hp, hvalue]
    cases fields with
    | nil =>
      rw [flatMap_nil, length_nil] at hlen
      rw [if_pos (by omega)]
      refine ⟨_, rfl, ?_⟩
      show (st.setCurrentbit (8 * pre.length + f.2)).msgReadmsg.currentbit = _
      rw [hmsg]
      dsimp only
      omega
    | cons g fields =>
      have hg := BitField.length_bytes (hf g (by simp))
      have hg8 : 8 ≤ g.2 := by rcases hf g (by simp) with h | h | h <;> omega
      have hlen' := hlen
      rw [flatMap_cons, List.length_append] at hlen'
      rw [if_neg (by omega)]
      obtain ⟨st', hread, hend⟩ := @ih (fun h hh => hf h (by simp [hh])) (pre ++ f.bytes)
        (st.setCurrentbit (8 * pre.length + f.2)) (by rw [hmsg]; exact hp)
        (by rw [hmsg, List.length_append]; dsimp only; omega)
        (by rw [hmsg, List.append_assoc]; exact hdata)
        (by rw [hmsg, List.append_assoc, hlen, List.length_append, List.length_append])
      rw [hmsg] at hend
      refine ⟨st', ?_, hend⟩
      rw [bind_eq_bind, bind_some, StateT.run_bind, hread]
      rfl

theorem map_value_eq_iff (hf : ∀ f ∈ fields, f.Whole) :
    (fields.dropLast.map BitField.value ++ fields.getLast?.toList.map fun _ => -1) =
      fields.map BitField.value ↔ ∀ f ∈ fields.getLast?, f = (0xffffffff, 32) := by
  rcases eq_nil_or_concat fields with rfl | ⟨init, l, rfl⟩
  · simp
  · have hl := BitField.value_eq_neg_one_iff (hf l (by simp))
    rw [concat_eq_append]
    simp only [dropLast_concat, getLast?_concat, toList_some, map_singleton, map_append, append_cancel_left_eq,
      List.cons.injEq, and_true, mem_def, Option.some.injEq, forall_eq']
    exact eq_comm.trans hl

/-- **With `SZ_RAWBYTES`** the fields come back when there is none or the last is a `-1` of 32
bits. -/
theorem bitsReadBack_rawBytes_iff {buf : Sizebuf} (hp : buf.packing = .rawBytes) (hf : ∀ f ∈ fields, f.Whole)
    (hroom : 8 * buf.cursize + totalBits fields ≤ 8 * buf.maxsize) (sb : MsgPtr) (st : MsgState) :
    BitsReadBack fields buf sb st ↔ ∀ f ∈ fields.getLast?, f = (0xffffffff, 32) := by
  have hlen := BitField.length_flatMap_bytes hf
  have hwrite := msgWriteFields_rawBytes hf hp (by omega)
  have hmsg : (st.setBuffer sb { buf.append (fields.flatMap BitField.bytes) with
      currentbit := 8 * buf.cursize }).msgReadmsg =
      { buf.append (fields.flatMap BitField.bytes) with currentbit := 8 * buf.cursize } :=
    msgReadmsg_setReadmsg _ _
  obtain ⟨st₁, hread, hend⟩ := @msgReadFields_rawBytes _ hf buf.contents
    (st.setBuffer sb { buf.append (fields.flatMap BitField.bytes) with
      currentbit := 8 * buf.cursize })
    (by rw [hmsg]; exact hp) (by rw [hmsg, Sizebuf.length_contents])
    (by rw [hmsg]; exact Sizebuf.contents_append _ _)
  rw [hmsg] at hend
  have hne : buf.packing ≠ .rawBits := by rw [hp]; decide
  rw [← map_value_eq_iff hf]
  constructor
  · rintro ⟨buf', st', hwrite', hread', -, -⟩
    obtain ⟨-, rfl⟩ := Prod.mk.inj (some.inj (hwrite.symm.trans hwrite'))
    exact (Prod.mk.inj (some.inj (hread.symm.trans hread'))).1
  · intro e
    rw [e] at hread
    refine ⟨_, _, hwrite, hread, ?_, ?_⟩
    · rw [if_neg hne]
      exact hend
    · rw [Sizebuf.cursize_append]
      omega

/-- **Which fields come back.** With `SZ_RAWBITS`, from a buffer of whole bytes: those where every
field of eight bits or more ends at a byte. With `SZ_RAWBYTES` and room: none at all, or those
that end with a `-1` of 32 bits. -/
theorem bitsReadBack_iff (fields : List BitField) (buf : Sizebuf) (sb : MsgPtr) (st : MsgState) :
    (buf.packing = .rawBits → buf.currentbit = 8 * buf.cursize →
      (∀ f ∈ fields, 1 ≤ f.2 ∧ f.2 ≤ 32) →
      (BitsReadBack fields buf sb st ↔ EndAtBytes 0 fields)) ∧
    (buf.packing = .rawBytes → (∀ f ∈ fields, f.Whole) →
      8 * buf.cursize + totalBits fields ≤ 8 * buf.maxsize →
      (BitsReadBack fields buf sb st ↔ ∀ f ∈ fields.getLast?, f = (0xffffffff, 32))) :=
  ⟨fun hp hc hw => bitsReadBack_rawBits_iff hp hc hw sb st,
    fun hp hf hroom => bitsReadBack_rawBytes_iff hp hf hroom sb st⟩

/-- Fields of 3, 5, 7 and 9 bits in one buffer, and of 8 and 32 in another. -/
theorem bitsReadBack_small :
    BitsReadBack [(5, 3), (31, 5), (77, 7), (300, 9)] { bufferOf [] 8 with packing := .rawBits }
      .netMessage ⟨bufferOf [] 0, bufferOf [] 0, .other, false⟩ ∧
    BitsReadBack [(200, 8), (0xffffffff, 32)] (bufferOf [] 8)
      .netMessage ⟨bufferOf [] 0, bufferOf [] 0, .other, false⟩ :=
  ⟨((bitsReadBack_iff _ _ _ _).1 rfl rfl (by decide)).2 (by simp [EndAtBytes]),
    ((bitsReadBack_iff _ _ _ _).2 rfl (by simp [BitField.Whole]) (by decide)).2 (by simp)⟩

/-- Four bits after twelve are lost, and so is a last byte. -/
theorem fields_not_readBack :
    ¬BitsReadBack [(0, 12), (1, 4)] { bufferOf [] 8 with packing := .rawBits }
      .netMessage ⟨bufferOf [] 0, bufferOf [] 0, .other, false⟩ ∧
    ¬BitsReadBack [(5, 8)] (bufferOf [] 8)
      .netMessage ⟨bufferOf [] 0, bufferOf [] 0, .other, false⟩ := by
  constructor
  · rw [bitsReadBack_rawBits_iff rfl rfl (by decide)]
    simp [EndAtBytes]
  · rw [bitsReadBack_rawBytes_iff rfl (by simp [BitField.Whole]) (by decide)]
    simp

end FteQuake
