import FteQuake.Qclib.Extend
import FteQuake.Qclib.VmMemory

/-!
# Native pointers for pointers of QuakeC

`PR_PointerToNative_Resize` and `PR_PointerToNative_MoInvalidate` of `initlib.c`: from a pointer of
QuakeC and an offset to a place in a temp string or in the addressable block. The first lets a temp
string grow. The main result says when a place that is given is the right one: the offset is 0 in
the addressable block, where it is left out of the result, and in a temp string the offset and the
size do not add up to more than 32 bits.

What a new temp string holds before it is written is arbitrary.
-/

namespace FteQuake.NativePtr

open Vm (stringSpecmask stringTemp)
open Addressable (memcpy memset)

/-! ## The two spaces -/

/-- `tempstr_t`. -/
structure TempStr where
  value : List QByte
  size_lt : value.length < 2 ^ 32

/-- `size`. -/
def TempStr.size (t : TempStr) : BitVec 32 := BitVec.ofNat 32 t.value.length

/-- The temp strings of a machine, and the part of its addressable block that is in use. -/
structure Machine where
  stringtablesize : BitVec 32
  maxtempstrings : ℕ
  tempstrings : ℕ → Option TempStr

def Machine.setTemp (vm : Machine) (i : ℕ) (t : TempStr) : Machine :=
  { vm with tempstrings := Function.update vm.tempstrings i (some t) }

/-- What a native pointer points into. -/
inductive Object
  | temp (i : ℕ)
  | block

/-- A native pointer. -/
structure Place where
  object : Object
  byte : ℤ

/-- The result of a translation. A fault is a write outside a temp string. -/
inductive Result
  | null
  | fault
  | place (vm : Machine) (p : Place)

/-- The pointer is that of a temp string. -/
def IsTemp (ptr : BitVec 32) : Prop := ptr &&& stringSpecmask = stringTemp

instance (ptr : BitVec 32) : Decidable (IsTemp ptr) := inferInstanceAs (Decidable (_ = _))

/-- The index of a temp string. -/
def tempIndex (ptr : BitVec 32) : ℕ := (ptr &&& ~~~stringSpecmask).toNat

/-! ## Temp strings -/

/-- The access ends behind the temp string, or at its end. -/
def TempStr.Beyond (t : TempStr) (offset datasize : BitVec 64) : Prop :=
  t.size.setWidth 64 < datasize ∨ t.size.setWidth 64 - datasize ≤ offset

instance (t : TempStr) (offset datasize : BitVec 64) : Decidable (t.Beyond offset datasize) :=
  inferInstanceAs (Decidable (_ ∨ _))

/-- A new temp string with the bytes of the old one and 0 behind them. -/
def TempStr.resize (t : TempStr) (newsize : ℕ) (junk : Mem QByte) : Option TempStr :=
  if h : newsize < 2 ^ 32 then do
    let m ← memcpy newsize junk 0 (some t.value)
    let m ← memset newsize m t.value.length (newsize - t.value.length)
    some ⟨m.slice 0 newsize, by rwa [Mem.length_slice]⟩
  else none

/-- The branch of `PR_PointerToNative_Resize` that makes a temp string longer. There may be no
memory. -/
def expand (vm : Machine) (i : ℕ) (t : TempStr) (offset datasize : BitVec 64)
    (newtemp : Option (Mem QByte)) : Result :=
  let newsize := ((offset + datasize).setWidth 32).toNat
  if 2 ^ 20 < newsize then .null
  else match newtemp with
    | none => .null
    | some junk => match t.resize ((newsize + 3) / 4 * 4) junk with
      | none => .fault
      | some t => .place (vm.setTemp i t) ⟨.temp i, offset.toNat⟩

/-- The temp string that a pointer is for. -/
def Machine.temp (vm : Machine) (i : ℕ) : Option TempStr :=
  if i < vm.maxtempstrings then vm.tempstrings i else none

/-! ## The addressable block -/

/-- The access does not lie in the used part of the block, whose last byte is left out. -/
def Machine.Outside (vm : Machine) (offset datasize : BitVec 64) : Prop :=
  vm.stringtablesize.setWidth 64 < datasize ∨ vm.stringtablesize.setWidth 64 - datasize ≤ offset

instance (vm : Machine) (offset datasize : BitVec 64) : Decidable (vm.Outside offset datasize) :=
  inferInstanceAs (Decidable (_ ∨ _))

/-- What `offset += ptr` gives. -/
def sum (ptr : BitVec 32) (offset : BitVec 64) : BitVec 64 := offset + ptr.signExtend 64

/-! ## Translation -/

/-- `PR_PointerToNative_Resize`. -/
def prPointerToNativeResize (newtemp : Option (Mem QByte)) (vm : Machine) (ptr : BitVec 32)
    (offset datasize : BitVec 64) : Result :=
  if IsTemp ptr then
    match vm.temp (tempIndex ptr) with
    | some t =>
      if t.Beyond offset datasize then expand vm (tempIndex ptr) t offset datasize newtemp
      else .place vm ⟨.temp (tempIndex ptr), offset.toNat⟩
    | none => .null
  else if vm.Outside (sum ptr offset) datasize ∨ sum ptr offset = 0 then .null
  else .place vm ⟨.block, ptr.toInt⟩

/-- `PR_PointerToNative_MoInvalidate`. -/
def prPointerToNativeMoInvalidate (vm : Machine) (ptr : BitVec 32) (offset datasize : BitVec 64) :
    Result :=
  if IsTemp ptr then
    match vm.temp (tempIndex ptr) with
    | some t =>
      if t.Beyond offset datasize then .null
      else .place vm ⟨.temp (tempIndex ptr), offset.toNat⟩
    | none => .null
  else if vm.Outside (sum ptr offset) datasize ∨ sum ptr offset = 0 ∧ 1 < datasize then .null
  else .place vm ⟨.block, ptr.toInt⟩

/-- The two functions. -/
inductive Translation
  | resize (newtemp : Option (Mem QByte))
  | moInvalidate

def Translation.run : Translation → Machine → BitVec 32 → BitVec 64 → BitVec 64 → Result
  | resize newtemp => prPointerToNativeResize newtemp
  | moInvalidate => prPointerToNativeMoInvalidate

/-! ## What a translation is for -/

/-- A place in temp string `i`: the byte at the offset, of a string that holds the bytes it held and
perhaps 0 behind them. -/
structure InTemp (vm vm' : Machine) (i : ℕ) (offset datasize : BitVec 64) (byte : ℤ) : Prop where
  byte_eq : byte = offset.toNat
  value : ∃ t t', vm.tempstrings i = some t ∧ vm'.tempstrings i = some t' ∧
    (∃ n, t'.value = t.value ++ List.replicate n 0) ∧
    offset.toNat + datasize.toNat ≤ t'.value.length
  others : ∀ j ≠ i, vm'.tempstrings j = vm.tempstrings j

/-- A place in the block: the byte at the pointer and the offset. -/
structure InBlock (vm vm' : Machine) (ptr : BitVec 32) (offset datasize : BitVec 64) (byte : ℤ) :
    Prop where
  byte_eq : byte = (sum ptr offset).toNat
  inside : (sum ptr offset).toNat + datasize.toNat ≤ vm.stringtablesize.toNat
  same : vm' = vm

/-- What a translation gives is null or the right place. -/
def Sound (vm : Machine) (ptr : BitVec 32) (offset datasize : BitVec 64) : Result → Prop
  | .null => True
  | .fault => False
  | .place vm' ⟨.temp i, byte⟩ =>
    IsTemp ptr ∧ i = tempIndex ptr ∧ InTemp vm vm' i offset datasize byte
  | .place vm' ⟨.block, byte⟩ => ¬IsTemp ptr ∧ InBlock vm vm' ptr offset datasize byte

/-- The offsets that the code gets right. -/
def Translates (ptr : BitVec 32) (offset datasize : BitVec 64) : Prop :=
  if IsTemp ptr then offset.toNat + datasize.toNat < 2 ^ 32 else offset = 0

/-! ### Sizes -/

/-- The bounds tests of both spaces. -/
theorem inside_iff (size : BitVec 32) (offset datasize : BitVec 64) :
    ¬(size.setWidth 64 < datasize ∨ size.setWidth 64 - datasize ≤ offset) ↔
      offset.toNat + datasize.toNat < size.toNat := by
  have hsize : (size.setWidth 64).toNat = size.toNat := BitVec.toNat_setWidth_of_le (by norm_num)
  constructor <;> intro h <;> bv_omega

theorem TempStr.toNat_size (t : TempStr) : t.size.toNat = t.value.length :=
  Nat.mod_eq_of_lt t.size_lt

theorem TempStr.not_beyond_iff (t : TempStr) (offset datasize : BitVec 64) :
    ¬t.Beyond offset datasize ↔ offset.toNat + datasize.toNat < t.value.length := by
  rw [← t.toNat_size]
  exact inside_iff _ _ _

/-! ### Longer temp strings -/

theorem TempStr.length_resize {t t' : TempStr} {newsize : ℕ} {junk : Mem QByte}
    (h : t.resize newsize junk = some t') : t'.value.length = newsize := by
  unfold resize at h
  split at h
  · obtain ⟨m, -, h⟩ := Option.bind_eq_some_iff.1 h
    obtain ⟨m', -, h⟩ := Option.bind_eq_some_iff.1 h
    cases h
    exact Mem.length_slice _ _ _
  · cases h

/-- The bytes of a longer temp string. -/
theorem TempStr.resize_of_le (t : TempStr) {newsize : ℕ} (junk : Mem QByte)
    (hlength : t.value.length ≤ newsize) (hnewsize : newsize < 2 ^ 32) :
    ∃ t', t.resize newsize junk = some t' ∧
      t'.value = t.value ++ List.replicate (newsize - t.value.length) 0 := by
  obtain ⟨n, rfl⟩ := Nat.exists_eq_add_of_le hlength
  have hcopy : memcpy (t.value.length + n) junk 0 (some t.value) = some (junk.blit 0 t.value) :=
    Mem.puts_of_le (by omega) junk
  have hset : memset (t.value.length + n) (junk.blit 0 t.value) t.value.length n =
      some ((junk.blit 0 t.value).fill t.value.length n 0) := if_pos le_rfl
  have hold : ((junk.blit 0 t.value).fill t.value.length n 0).slice 0 t.value.length = t.value := by
    conv_rhs => rw [← Mem.slice_blit_self junk 0 t.value]
    apply Mem.slice_congr
    intro a _ ha
    exact Mem.fill_apply_of_out _ 0 (.inl (by omega))
  have hnew : ((junk.blit 0 t.value).fill t.value.length n 0).slice t.value.length n = List.replicate n 0 := by
    apply List.ext_getElem
    · simp
    · intro i hi _
      rw [Mem.length_slice] at hi
      rw [Mem.getElem_slice, List.getElem_replicate]
      exact Mem.fill_apply_of_in _ 0 (by omega) (by omega)
  obtain ⟨t', hresize⟩ : ∃ t', t.resize (t.value.length + n) junk = some t' ∧
      t'.value = ((junk.blit 0 t.value).fill t.value.length n 0).slice 0 (t.value.length + n) := by
    rw [resize, dif_pos hnewsize, hcopy, Nat.add_sub_cancel_left]
    simp [hset]
  refine ⟨t', hresize.1, ?_⟩
  rw [hresize.2, Mem.slice_add, hold, Nat.zero_add, hnew, Nat.add_sub_cancel_left]

/-! ### The two spaces -/

variable {vm : Machine} {ptr : BitVec 32} {offset datasize : BitVec 64} {t : TempStr}

theorem Machine.tempstrings_of_temp {i : ℕ} (h : vm.temp i = some t) : vm.tempstrings i = some t :=
  (Option.ite_none_right_eq_some.1 h).2

/-- A place in a temp string that is long enough. -/
theorem InTemp.of_not_beyond {i : ℕ} (h : vm.temp i = some t) (hin : ¬t.Beyond offset datasize) :
    InTemp vm vm i offset datasize offset.toNat where
  byte_eq := rfl
  value := by
    have ht := Machine.tempstrings_of_temp h
    exact ⟨t, t, ht, ht, ⟨0, by simp⟩, ((t.not_beyond_iff _ _).1 hin).le⟩
  others := fun _ _ => rfl

theorem translates_of_not_beyond (htemp : IsTemp ptr) (hin : ¬t.Beyond offset datasize) :
    Translates ptr offset datasize := by
  have hlt := t.size_lt
  rw [t.not_beyond_iff] at hin
  rw [Translates, if_pos htemp]
  omega

/-- **A temp string that grows** has room for the access unless its end was cut to 32 bits. -/
theorem sound_expand_iff (htemp : IsTemp ptr) (ht : vm.temp (tempIndex ptr) = some t)
    (hbeyond : t.Beyond offset datasize) {newtemp : Option (Mem QByte)}
    (h : expand vm (tempIndex ptr) t offset datasize newtemp ≠ .null) :
    Sound vm ptr offset datasize (expand vm (tempIndex ptr) t offset datasize newtemp) ↔
      Translates ptr offset datasize := by
  have hend : t.value.length ≤ offset.toNat + datasize.toNat :=
    not_lt.1 fun hlt => (t.not_beyond_iff _ _).2 hlt hbeyond
  have hcut : ((offset + datasize).setWidth 32).toNat = (offset.toNat + datasize.toNat) % 2 ^ 32 := by
    rw [BitVec.toNat_setWidth, BitVec.toNat_add]
    omega
  rw [Translates, if_pos htemp]
  unfold expand at h ⊢
  simp only [hcut] at h ⊢
  split at h
  · exact absurd rfl h
  next hsmall =>
  rw [if_neg hsmall]
  cases newtemp with
  | none => exact absurd rfl h
  | some junk =>
    dsimp only
    by_cases hsum : offset.toNat + datasize.toNat < 2 ^ 32
    · rw [Nat.mod_eq_of_lt hsum] at hsmall ⊢
      have hroom : t.value.length ≤ (offset.toNat + datasize.toNat + 3) / 4 * 4 := by omega
      have hsmall' : (offset.toNat + datasize.toNat + 3) / 4 * 4 < 2 ^ 32 := by omega
      obtain ⟨t', hresize, hvalue⟩ :=
        t.resize_of_le junk hroom hsmall'
      have hlength := TempStr.length_resize hresize
      rw [hresize]
      refine ⟨fun _ => hsum, fun _ => ⟨htemp, rfl, rfl, ?_, ?_⟩⟩
      · exact ⟨t, t', Machine.tempstrings_of_temp ht, Function.update_self .., ⟨_, hvalue⟩, by omega⟩
      · exact fun j hj => Function.update_of_ne hj ..
    · refine ⟨fun hsound => ?_, fun hlt => absurd hlt hsum⟩
      split at hsound
      · exact hsound.elim
      · next t' hresize =>
        -- the string is as long as the end that was cut
        have hlength := TempStr.length_resize hresize
        obtain ⟨-, -, -, ⟨-, t'', -, hnew, -, hinside⟩, -⟩ := hsound
        cases (Function.update_self ..).symm.trans hnew
        omega

/-- **In the block** the place is the pointer's, whatever the offset. -/
theorem sound_block_iff (hptr : ¬IsTemp ptr) (hin : ¬vm.Outside (sum ptr offset) datasize) :
    Sound vm ptr offset datasize (.place vm ⟨.block, ptr.toInt⟩) ↔ Translates ptr offset datasize := by
  have hinside := (inside_iff vm.stringtablesize (sum ptr offset) datasize).1 hin
  have hlt := vm.stringtablesize.isLt
  rw [Translates, if_neg hptr]
  constructor
  · rintro ⟨-, hbyte, -, -⟩
    have hsum : ptr.signExtend 64 = sum ptr offset := by
      rw [BitVec.signExtend, hbyte, BitVec.ofInt_natCast, BitVec.ofNat_toNat, BitVec.setWidth_eq]
    exact BitVec.add_left_eq_self.1 hsum.symm
  · rintro rfl
    refine ⟨hptr, ?_, hinside.le, rfl⟩
    have hsum : sum ptr 0 = ptr.signExtend 64 := BitVec.zero_add _
    rw [hsum] at hinside ⊢
    have hint : (ptr.signExtend 64).toInt = ptr.toInt := BitVec.toInt_signExtend_of_le (by norm_num)
    rw [← hint, BitVec.toInt_eq_toNat_of_lt (by omega)]

/-! ### Both functions -/

variable {f : Translation}

theorem Translation.run_of_no_temp (htemp : IsTemp ptr) (ht : vm.temp (tempIndex ptr) = none) :
    f.run vm ptr offset datasize = .null := by
  cases f with
  | resize newtemp => rw [run, prPointerToNativeResize, if_pos htemp, ht]
  | moInvalidate => rw [run, prPointerToNativeMoInvalidate, if_pos htemp, ht]

theorem Translation.run_of_not_beyond (htemp : IsTemp ptr) (ht : vm.temp (tempIndex ptr) = some t)
    (hin : ¬t.Beyond offset datasize) :
    f.run vm ptr offset datasize = .place vm ⟨.temp (tempIndex ptr), offset.toNat⟩ := by
  cases f with
  | resize newtemp =>
    rw [run, prPointerToNativeResize, if_pos htemp, ht]
    exact if_neg hin
  | moInvalidate =>
    rw [run, prPointerToNativeMoInvalidate, if_pos htemp, ht]
    exact if_neg hin

/-- Only `PR_PointerToNative_Resize` gives a place behind the end of a temp string. -/
theorem Translation.run_of_beyond (htemp : IsTemp ptr) (ht : vm.temp (tempIndex ptr) = some t)
    (hbeyond : t.Beyond offset datasize) (h : f.run vm ptr offset datasize ≠ .null) :
    ∃ newtemp, f.run vm ptr offset datasize = expand vm (tempIndex ptr) t offset datasize newtemp := by
  cases f with
  | resize newtemp =>
    rw [run, prPointerToNativeResize, if_pos htemp, ht]
    exact ⟨newtemp, if_pos hbeyond⟩
  | moInvalidate =>
    rw [run, prPointerToNativeMoInvalidate, if_pos htemp, ht] at h
    exact absurd (if_pos hbeyond) h

theorem Translation.run_block (hptr : ¬IsTemp ptr) (h : f.run vm ptr offset datasize ≠ .null) :
    ¬vm.Outside (sum ptr offset) datasize ∧
      f.run vm ptr offset datasize = .place vm ⟨.block, ptr.toInt⟩ := by
  cases f with
  | resize newtemp =>
    rw [run, prPointerToNativeResize, if_neg hptr] at h ⊢
    have hin := fun hnull => h (if_pos hnull)
    exact ⟨fun hout => hin (.inl hout), if_neg hin⟩
  | moInvalidate =>
    rw [run, prPointerToNativeMoInvalidate, if_neg hptr] at h ⊢
    have hin := fun hnull => h (if_pos hnull)
    exact ⟨fun hout => hin (.inl hout), if_neg hin⟩

/-- **When a translation is right.** A place that `PR_PointerToNative_Resize` or
`PR_PointerToNative_MoInvalidate` gives is the byte at the offset, with the access inside, exactly
when the offset is 0 in the addressable block and the access ends before `2 ^ 32` in a temp
string. -/
theorem translation_sound_iff (f : Translation) (vm : Machine) (ptr : BitVec 32)
    (offset datasize : BitVec 64) (h : f.run vm ptr offset datasize ≠ .null) :
    Sound vm ptr offset datasize (f.run vm ptr offset datasize) ↔ Translates ptr offset datasize := by
  by_cases htemp : IsTemp ptr
  · cases ht : vm.temp (tempIndex ptr) with
    | none => exact absurd (Translation.run_of_no_temp htemp ht) h
    | some t =>
      by_cases hbeyond : t.Beyond offset datasize
      · obtain ⟨newtemp, hrun⟩ := Translation.run_of_beyond htemp ht hbeyond h
        rw [hrun] at h ⊢
        exact sound_expand_iff htemp ht hbeyond h
      · rw [Translation.run_of_not_beyond htemp ht hbeyond]
        have hright : InTemp vm vm (tempIndex ptr) offset datasize offset.toNat := .of_not_beyond ht hbeyond
        exact iff_of_true ⟨htemp, rfl, hright⟩ (translates_of_not_beyond htemp hbeyond)
  · obtain ⟨hin, hrun⟩ := Translation.run_block htemp h
    rw [hrun]
    exact sound_block_iff htemp hin

/-- A machine with 64 bytes in use and one temp string. -/
def sixtyFour : Machine where
  stringtablesize := 64
  maxtempstrings := 1
  tempstrings := fun _ => some ⟨[1, 2, 3, 4], by decide⟩

/-- A temp string that grows. -/
theorem translation_sound_sixtyFour :
    Sound sixtyFour 0x80000000 6 2 ((Translation.resize (some fun _ => 7)).run sixtyFour 0x80000000 6 2) := by
  refine (translation_sound_iff _ _ _ _ _ ?_).2 ?_
  · exact Result.noConfusion
  · exact (if_pos (by decide)).mpr (by decide)

/-- The offset is left out in the addressable block. -/
theorem translation_not_sound :
    ¬∀ (f : Translation) vm ptr (offset datasize : BitVec 64), 1 ≤ datasize →
      Sound vm ptr offset datasize (f.run vm ptr offset datasize) := by
  intro h
  have hblock := h .moInvalidate sixtyFour 16 4 4 (by decide)
  have hrun : Translation.moInvalidate.run sixtyFour 16 4 4 = .place sixtyFour ⟨.block, 16⟩ := rfl
  rw [hrun] at hblock
  exact absurd hblock.2.byte_eq (by decide)

end FteQuake.NativePtr
