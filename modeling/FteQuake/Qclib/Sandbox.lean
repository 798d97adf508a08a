import FteQuake.Qclib.VmMemory

/-!
# When an opcode stays inside the sandbox

`Outcome.Safe` says that an opcode faults, or touches only bytes of the globals, of the addressable
block, of the entity that it names or of the value array of the temp string that it names.
`MemOp.Meets` is the condition on the operands under which it does, opcode by opcode, and
`exec_safe_iff` that this is the condition for every statement that `PR_CleanUpStatements` lets
pass.
-/

namespace FteQuake

open List
open BitVec (le_def toInt_eq_toNat_cond toNat_ofNat toNat_setWidth toNat_sub)

namespace Vm

variable (vm : Vm)

/-- Bytes of the globals with their padding, or of the addressable block. -/
def InBlock (offset : ℤ) (size : ℕ) : Prop :=
  (vm.globals : ℤ) ≤ offset ∧ offset + size ≤ vm.globals + 4 * (vm.numglobals + 3) ∨
    0 ≤ offset ∧ offset + size ≤ vm.addressableused

/-- Bytes that an opcode may touch. -/
def Inside (x : Access) : Prop :=
  match x.place with
  | .hunk => vm.InBlock x.offset x.size
  | .fields e => vm.InBlock x.offset x.size ∨
      ∃ ed p, vm.edicttable e = some ed ∧ ed.fields = some p ∧ p ≤ x.offset ∧
        x.offset + x.size ≤ p + ed.fieldsize
  | .temp size => 0 ≤ x.offset ∧ x.offset + x.size ≤ size
  | .dummy | .null => False

/-- What holds of a machine with progs in it: the strings come first in the block, then the globals
and three words of padding, and the fields of entities are in the block as well. -/
structure Wf : Prop where
  four_le_globals : 4 ≤ vm.globals
  globals_le : vm.globals + 4 * (vm.numglobals + 3) ≤ vm.addressableused
  used_le : vm.addressableused ≤ 2 ^ 31
  fieldsize_eq_zero : ∀ e ed, vm.edicttable e = some ed → ed.fields = none → ed.fieldsize = 0
  fields_inBlock : ∀ e ed p, vm.edicttable e = some ed → ed.fields = some p →
    0 ≤ p ∧ p + ed.fieldsize ≤ vm.addressableused

/-- The first `size` bytes of a global lie in the block. -/
def Fits (a : ℤ) (size : ℕ) : Prop :=
  0 ≤ vm.globals + 4 * a ∧ vm.globals + 4 * a + size ≤ vm.addressableused

end Vm

/-- An opcode that faults, or stays inside. -/
def Outcome.Safe (vm : Vm) : Outcome → Prop
  | .fault => True
  | .ran accesses => ∀ x ∈ accesses, vm.Inside x

/-- Operands that `PR_CleanUpStatements` lets pass. -/
structure QcStatement.Clean (vm : Vm) (st : QcStatement) : Prop where
  a_lt : st.a < vm.numglobals + 3
  b_lt : st.b < vm.numglobals + 3
  c_lt : st.c < vm.numglobals + 3

namespace Vm

variable {vm : Vm} {st : QcStatement}

/-! ## Accesses -/

variable {size : ℕ} {offset : ℤ}

theorem Wf.inBlock_iff (hw : vm.Wf) :
    vm.InBlock offset size ↔ 0 ≤ offset ∧ offset + size ≤ vm.addressableused := by
  have h₁ := hw.globals_le
  unfold InBlock
  omega

theorem Wf.inside_hunk (hw : vm.Wf) :
    vm.Inside ⟨.hunk, offset, size⟩ ↔ 0 ≤ offset ∧ offset + size ≤ vm.addressableused :=
  hw.inBlock_iff

theorem Wf.inside_glob (hw : vm.Wf) {a : ℤ} :
    vm.Inside (vm.glob a size) ↔ vm.Fits a size :=
  hw.inBlock_iff

theorem inside_temp {n : ℕ} :
    vm.Inside ⟨.temp n, offset, size⟩ ↔ 0 ≤ offset ∧ offset + size ≤ n := Iff.rfl

theorem not_inside_dummy : ¬vm.Inside ⟨.dummy, offset, size⟩ := id

theorem not_inside_null : ¬vm.Inside ⟨.null, offset, size⟩ := id

/-- Bytes of an entity are bytes of the block. -/
theorem Wf.inside_field (hw : vm.Wf) {e : ℕ} {ed : EdictRun} {p i : ℤ}
    (hed : vm.edicttable e = some ed) (hp : ed.fields = some p) :
    vm.Inside (ed.field e i size) ↔ 0 ≤ p + 4 * i ∧ p + 4 * i + size ≤ vm.addressableused := by
  have hfield : ed.field e i size = ⟨.fields e, p + 4 * i, size⟩ := by simp [EdictRun.field, hp]
  rw [hfield]
  change vm.InBlock _ size ∨ _ ↔ _
  rw [hw.inBlock_iff]
  refine ⟨fun h => ?_, .inl⟩
  rcases h with h | ⟨ed', p', hed', hp', hle, hend⟩
  · exact h
  · obtain rfl : ed = ed' := Option.some.inj (hed.symm.trans hed')
    obtain rfl : p = p' := Option.some.inj (hp.symm.trans hp')
    change p ≤ p + 4 * i at hle
    change p + 4 * i + size ≤ p + ed.fieldsize at hend
    have hblock := hw.fields_inBlock e ed p hed hp
    omega

theorem not_inside_field {e : ℕ} {ed : EdictRun} {i : ℤ} (hp : ed.fields = none) :
    ¬vm.Inside (ed.field e i size) := by
  simp only [EdictRun.field, hp]
  exact not_inside_null

/-- One word of a global with its padding. -/
theorem Wf.fits_word (hw : vm.Wf) {a : ℕ} (ha : a < vm.numglobals + 3) : vm.Fits a 4 := by
  have h₁ := hw.globals_le
  unfold Fits
  omega

/-! ## Tests of pointers -/

theorem Wf.writeFail_iff (hw : vm.Wf) {p : BitVec 32} (hsize : size ≤ 12) :
    ¬vm.writeFail p size ↔ 1 ≤ p.toNat ∧ p.toNat + size < vm.addressableused := by
  have h₁ := hw.four_le_globals
  have h₂ := hw.globals_le
  have h₃ := hw.used_le
  have hp := p.isLt
  have one₆₄ : (1 : BitVec 64).toNat = 1 := rfl
  have one₃₂ : (1 : BitVec 32).toNat = 1 := rfl
  unfold writeFail
  rw [le_def]
  simp only [toNat_sub, toNat_ofNat, toNat_setWidth, one₆₄, one₃₂]
  omega

theorem Wf.readFail_iff (hw : vm.Wf) {p : BitVec 32} (hsize : size ≤ 12) :
    ¬vm.readFail p size ↔ p.toNat + size < vm.addressableused := by
  have h₁ := hw.four_le_globals
  have h₂ := hw.globals_le
  have h₃ := hw.used_le
  have hp := p.isLt
  unfold readFail
  rw [le_def]
  simp only [toNat_sub, toNat_ofNat, toNat_setWidth]
  omega

/-! ## The conditions -/

section Conditions

variable (vm : Vm) (st : QcStatement)

/-- A write to a temp string of `n` bytes that is refused, since the string would become too
large. -/
def TooLarge (n last : ℤ) : Prop := n ≤ last % 2 ^ 64 ∧ 2 ^ 20 < last % 2 ^ 32

/-- The index of a store to a temp string is not negative, and does not reach 4 GiB. -/
def StorepMeets (scale size value : ℕ) : Prop :=
  let k := (vm.globalInt st.c).toInt
  if vm.writeFail (vm.globalInt st.b + vm.globalInt st.c * BitVec.ofNat 32 scale) size then
    ∀ n, vm.tempSize (vm.globalInt st.b) = some n → TooLarge n.toNat (k * scale + size) ∨
      0 ≤ k ∧ k * scale + size < 2 ^ 32 ∧ vm.Fits st.a value
  else vm.Fits st.a value

/-- A load from a temp string is from within it. -/
def LoadpMeets (i : BitVec 32) (k : ℤ) (size dest : ℕ) : Prop :=
  if vm.readFail i size then
    match vm.tempSize (vm.globalInt st.a) with
    | some n => 0 ≤ k ∧ k + size ≤ n.toNat ∧ vm.Fits st.c dest
    | none => i = -1 → vm.Fits st.c dest
  else vm.Fits st.c dest

/-- The pointer is not to one of the last three bytes. -/
def LoadpConvMeets : Prop :=
  (vm.globalInt st.a).toNat + 4 ≤ vm.addressableused ∨
    vm.addressableused ≤ (vm.globalInt st.a).toNat + 1

def ModifypMeets (size value : ℕ) (dest : Option ℕ) : Prop :=
  vm.writeFail (vm.globalInt st.b) size ∨ vm.Fits st.a value ∧ ∀ n ∈ dest, vm.Fits st.c n

/-- The index of a field is not negative and below 2^30, and all of the field is in the block. -/
def StorefMeets (size : ℕ) : Prop :=
  let e := (vm.globalInt st.a).toNat
  let i := vm.globalInt st.b + vm.fieldadjust
  ∀ ed, e < vm.numEdicts → vm.edicttable e = some ed → ed.readonly = false →
    (i * 4).toNat < ed.fieldsize → ∀ p ∈ ed.fields, 0 ≤ i.toInt ∧ i.toInt < 2 ^ 30 ∧
      p + 4 * i.toInt + size ≤ vm.addressableused ∧ vm.Fits st.c size

/-- The entity exists, it has fields, and the index is not so large that its offset wraps. -/
def LoadMeets (words invalid : ℕ) : Prop :=
  let e := (vm.globalInt st.a).toNat
  let i := vm.globalInt st.b + vm.fieldadjust
  (vm.numEdicts ≤ e → vm.Fits st.c invalid) ∧
    (e < vm.numEdicts → ∃ ed, vm.edicttable e = some ed ∧
      (((i + BitVec.ofNat 32 words) * 4).toNat ≤ ed.fieldsize → ∃ p, ed.fields = some p ∧
        -words ≤ i.toInt ∧ i.toInt + words < 2 ^ 30 ∧ 0 ≤ p + 4 * i.toInt ∧
          vm.Fits st.c (4 * words)))

/-- There are enough globals for the bound not to wrap. -/
def IndexMeets (i : ℤ) (words : ℕ) : Prop := words ≤ vm.numglobals + 1 ∨ vm.Fits i (4 * words)

def LoadaMeets (words : ℕ) : Prop :=
  let i := BitVec.ofNat 32 st.a + vm.globalInt st.b
  BitVec.ofNat 64 vm.numglobals - BitVec.ofNat 64 (words - 1) ≤ i.signExtend 64 ∨
    IndexMeets vm i.toInt words ∧ vm.Fits st.c (4 * words)

def GloadMeets (words : ℕ) : Prop :=
  let i := vm.globalInt st.a
  vm.badIndex i words ∨ IndexMeets vm i.toInt words ∧ vm.Fits st.c (4 * words)

def GstorepMeets (words : ℕ) : Prop :=
  let i := vm.globalInt st.b
  vm.badIndex i words ∨ IndexMeets vm i.toInt words ∧ vm.Fits st.a (4 * words)

/-- What the global before the array allows as an index is in the block. -/
def FetchGblMeets (width : IntSize) (words : ℕ) : Prop :=
  let i := vm.toInt (vm.globalInt st.b)
  let last := operandIndex width st.a (-1)
  vm.globalInt last < i ∨ vm.Fits last 4 ∧
    vm.Fits (operandIndex width st.a (i * BitVec.ofNat 32 words)) (4 * words) ∧
      vm.Fits st.c (4 * words)

end Conditions

/-! ## Each family -/

theorem safe_ran {xs : List Access} : (Outcome.ran xs).Safe vm ↔ ∀ x ∈ xs, vm.Inside x := Iff.rfl

theorem safe_fault : Outcome.fault.Safe vm := trivial

theorem safe_pointerArith (hw : vm.Wf) (hst : st.Clean vm) (both : Bool) :
    (vm.pointerArith st both).Safe vm := by
  have ha := hw.inside_glob.2 (hw.fits_word hst.a_lt)
  have hb := hw.inside_glob.2 (hw.fits_word hst.b_lt)
  have hc := hw.inside_glob.2 (hw.fits_word hst.c_lt)
  unfold pointerArith
  rw [safe_ran]
  cases both <;> simp [ha, hb, hc]

theorem safe_addressOf (hw : vm.Wf) (hst : st.Clean vm) : (vm.addressOf st).Safe vm := by
  have ha := hw.inside_glob.2 (hw.fits_word hst.a_lt)
  have hb := hw.inside_glob.2 (hw.fits_word hst.b_lt)
  have hc := hw.inside_glob.2 (hw.fits_word hst.c_lt)
  simp only [addressOf]
  split_ifs
  · rw [safe_ran]
    simp [ha]
  · rw [safe_ran]
    simp [ha, hb, hc]

theorem safe_modifyp_iff (hw : vm.Wf) (hst : st.Clean vm) {size value : ℕ} {dest : Option ℕ} (hsize : size ≤ 12) :
    (vm.modifyp st size value dest).Safe vm ↔ ModifypMeets vm st size value dest := by
  have hb := hw.inside_glob.2 (hw.fits_word hst.b_lt)
  unfold modifyp ModifypMeets
  by_cases hfail : vm.writeFail (vm.globalInt st.b) size
  · simp [hfail, safe_fault]
  · have hp := (hw.writeFail_iff hsize).1 hfail
    have hin : vm.Inside ⟨.hunk, (vm.globalInt st.b).toNat, size⟩ := hw.inside_hunk.2 (by omega)
    simp only [hfail, if_false, false_or, safe_ran]
    cases dest <;> simp [hb, hin, hw.inside_glob]

theorem safe_loadpConv_iff (hw : vm.Wf) (hst : st.Clean vm) :
    (vm.loadpConv st).Safe vm ↔ LoadpConvMeets vm st := by
  have ha := hw.inside_glob.2 (hw.fits_word hst.a_lt)
  have hc := hw.inside_glob.2 (hw.fits_word hst.c_lt)
  have hiff : ¬vm.readFail (vm.globalInt st.a) 1 ↔ _ := hw.readFail_iff (by omega)
  unfold loadpConv LoadpConvMeets
  by_cases hfail : vm.readFail (vm.globalInt st.a) 1
  · have hlt := not_iff_not.2 hiff
    rw [not_not] at hlt
    have := hlt.1 hfail
    simp only [hfail, if_true, safe_fault, true_iff]
    omega
  · have hlt := hiff.1 hfail
    simp only [hfail, if_false, safe_ran]
    simp only [mem_cons, not_mem_nil, or_false, forall_eq_or_imp, forall_eq, ha, hc, hw.inside_hunk, true_and, and_true]
    omega

/-- The offset of an index that counts `scale` bytes. -/
theorem toInt_offset (c : BitVec 32) {scale : ℕ} (hs : scale ≤ 4) :
    (c.signExtend 64 * BitVec.ofNat 64 scale).toInt = c.toInt * scale := by
  have h₁ := c.toInt_lt
  have h₂ := c.le_toInt
  rw [BitVec.toInt_mul, BitVec.toInt_signExtend_of_le (by omega), BitVec.toInt_ofNat']
  have hb : (scale : ℤ).bmod (2 ^ 64) = scale := Int.bmod_eq_of_le (by omega) (by omega)
  rw [hb]
  have hs' : scale = 0 ∨ scale = 1 ∨ scale = 2 ∨ scale = 3 ∨ scale = 4 := by omega
  rcases hs' with rfl | rfl | rfl | rfl | rfl
  all_goals
    refine Int.bmod_eq_of_le ?_ ?_
    all_goals
      push_cast
      omega

theorem setWidth_signExtend (c : BitVec 32) : (c.signExtend 64).setWidth 32 = c := by
  ext i hi
  rw [BitVec.getElem_setWidth, BitVec.getLsbD_signExtend]
  simp [hi, show i < 64 by omega, BitVec.getLsbD_eq_getElem]

theorem setWidth_offset (c : BitVec 32) (scale : ℕ) :
    (c.signExtend 64 * BitVec.ofNat 64 scale).setWidth 32 = c * BitVec.ofNat 32 scale := by
  rw [BitVec.setWidth_mul _ _ (by omega), BitVec.setWidth_ofNat_of_le (by omega),
    setWidth_signExtend]

/-- The end of an access, in 64 bits. -/
theorem toNat_last (offset : BitVec 64) (n : ℕ) :
    ((offset + BitVec.ofNat 64 n).toNat : ℤ) = (offset.toInt + n) % 2 ^ 64 := by
  have h := offset.isLt
  rw [BitVec.toNat_add, toNat_ofNat, toInt_eq_toNat_cond]
  split_ifs <;> omega

/-! ## Temp strings -/

section TempStrings

variable {str : BitVec 32} {offset : BitVec 64} {size : ℕ} {n : BitVec 32} {xs : List Access}

theorem prGetWriteTempStringPtr_eq_none_iff (hn : vm.tempSize str = some n) :
    vm.prGetWriteTempStringPtr str offset size = none ↔
      TooLarge n.toNat (offset.toInt + size) := by
  have hlast := toNat_last offset size
  have hlt := (offset + BitVec.ofNat 64 size).isLt
  have hnlt := n.isLt
  simp only [prGetWriteTempStringPtr, hn, Option.bind_eq_bind, Option.bind_some, le_def, toNat_setWidth, TooLarge]
  split_ifs with hle hbig
  · simp only [true_iff]
    omega
  · simp only [false_iff]
    omega
  · simp only [false_iff]
    omega

/-- A store to a temp string is inside its value array, which grows where it must, just when the
offset is not negative and the end does not wrap. -/
theorem inside_prGetWriteTempStringPtr_iff (hn : vm.tempSize str = some n) (hsize : 0 < size)
    (hxs : vm.prGetWriteTempStringPtr str offset size = some xs) :
    (∀ x ∈ xs, vm.Inside x) ↔ 0 ≤ offset.toInt ∧ offset.toInt + size < 2 ^ 32 := by
  have hlast := toNat_last offset size
  have hlt := (offset + BitVec.ofNat 64 size).isLt
  have hnlt := n.isLt
  have hoff := offset.toInt_lt
  simp only [prGetWriteTempStringPtr, hn, Option.bind_eq_bind, Option.bind_some, le_def, toNat_setWidth] at hxs
  split_ifs at hxs with hle hbig
  · obtain rfl := Option.some.inj hxs
    simp only [resizeAccesses, cons_append, nil_append, mem_cons, not_mem_nil,
      or_false, forall_eq_or_imp, forall_eq, inside_temp, toNat_sub, toNat_ofNat]
    omega
  · obtain rfl := Option.some.inj hxs
    simp only [mem_cons, not_mem_nil, or_false, forall_eq, inside_temp]
    omega

/-- A load from a temp string is inside its value array, or reads the static result. -/
theorem inside_prGetReadTempStringPtr_iff (hn : vm.tempSize str = some n) (hsize : 0 < size) :
    (∀ x ∈ vm.prGetReadTempStringPtr str offset size, vm.Inside x) ↔
      0 ≤ offset.toInt ∧ offset.toInt + size ≤ n.toNat := by
  have hlast := toNat_last offset size
  have hlt := (offset + BitVec.ofNat 64 size).isLt
  have hnlt := n.isLt
  have hoff := offset.toInt_lt
  simp only [prGetReadTempStringPtr, hn, Option.map_some, Option.mem_def, Option.some.injEq,
    forall_eq', le_def, toNat_setWidth]
  split_ifs with hle
  · rw [inside_temp]
  · simp only [not_inside_dummy, false_iff]
    omega

end TempStrings

/-! ## Stores and loads through pointers -/

theorem safe_append {xs ys : List Access} :
    (Outcome.ran (xs ++ ys)).Safe vm ↔ (∀ x ∈ xs, vm.Inside x) ∧ ∀ x ∈ ys, vm.Inside x := by
  rw [safe_ran, forall_mem_append]

variable {size words : ℕ}

theorem safe_storep_iff (hw : vm.Wf) (hst : st.Clean vm) {scale value : ℕ}
    (hscale : 0 < scale ∧ scale ≤ 4) (hsize : 0 < size ∧ size ≤ 12) :
    (vm.storep st scale size value).Safe vm ↔ StorepMeets vm st scale size value := by
  have hb := hw.fits_word hst.b_lt
  have hc := hw.fits_word hst.c_lt
  have hops : ∀ x ∈ [vm.glob st.b 4, vm.glob st.c 4], vm.Inside x := by
    simp [hw.inside_glob, hb, hc]
  simp only [storep, StorepMeets, setWidth_offset]
  by_cases hfail : vm.writeFail (vm.globalInt st.b + vm.globalInt st.c * BitVec.ofNat 32 scale) size
  · simp only [hfail, if_true]
    cases hn : vm.tempSize (vm.globalInt st.b) with
    | none =>
      have hnone : vm.prGetWriteTempStringPtr (vm.globalInt st.b)
          ((vm.globalInt st.c).signExtend 64 * BitVec.ofNat 64 scale) size = none := by
        simp [prGetWriteTempStringPtr, hn]
      simp only [hnone, reduceCtorEq, false_implies, implies_true, iff_true]
      split_ifs
      · exact safe_ran.2 hops
      · exact safe_fault
    | some n =>
      have hoff := toInt_offset (vm.globalInt st.c) hscale.2
      simp only [Option.some.injEq, forall_eq']
      cases hxs : vm.prGetWriteTempStringPtr (vm.globalInt st.b)
          ((vm.globalInt st.c).signExtend 64 * BitVec.ofNat 64 scale) size with
      | none =>
        have hlarge := (prGetWriteTempStringPtr_eq_none_iff hn).1 hxs
        rw [hoff] at hlarge
        simp only [hlarge, true_or, iff_true]
        split_ifs
        · exact safe_ran.2 hops
        · exact safe_fault
      | some xs =>
        have hlarge := mt (prGetWriteTempStringPtr_eq_none_iff hn).2 (ne_of_eq_of_ne hxs (Option.some_ne_none xs))
        have hin := inside_prGetWriteTempStringPtr_iff hn hsize.1 hxs
        rw [hoff] at hlarge hin
        have hneg : 0 ≤ (vm.globalInt st.c).toInt * scale ↔ 0 ≤ (vm.globalInt st.c).toInt :=
          mul_nonneg_iff_of_pos_right (by exact_mod_cast hscale.1)
        simp only [safe_append, forall_mem_append, forall_mem_singleton, hw.inside_glob,
          hlarge, hin, hneg, false_or, and_assoc]
        exact and_iff_right hops
  · have hp := (hw.writeFail_iff hsize.2).1 hfail
    have hin : vm.Inside ⟨.hunk, (vm.globalInt st.b +
        vm.globalInt st.c * BitVec.ofNat 32 scale).toNat, size⟩ := hw.inside_hunk.2 (by omega)
    simp only [hfail, if_false, safe_append, forall_mem_cons, not_mem_nil, false_implies,
      implies_true, and_true, hw.inside_glob, hb, hc, hin, true_and]

theorem safe_loadpAt_iff (hw : vm.Wf) (hst : st.Clean vm) {i : BitVec 32} {offset : BitVec 64}
    {dest : ℕ} (hsize : 0 < size ∧ size ≤ 12) :
    (vm.loadpAt st i offset size dest).Safe vm ↔ LoadpMeets vm st i offset.toInt size dest := by
  have ha := hw.fits_word hst.a_lt
  have hb := hw.fits_word hst.b_lt
  unfold loadpAt LoadpMeets
  by_cases hfail : vm.readFail i size
  · simp only [hfail, if_true]
    cases hn : vm.tempSize (vm.globalInt st.a) with
    | none =>
      have hnone : vm.prGetReadTempStringPtr (vm.globalInt st.a) offset size = none := by
        simp [prGetReadTempStringPtr, hn]
      simp only [hnone]
      by_cases hi : i = -1
      · simp only [hi, if_true, true_implies]
        simp [safe_ran, hw.inside_glob, ha, hb]
      · simp only [hi, if_false, false_implies, safe_fault]
    | some n =>
      have hin : (∀ x ∈ vm.prGetReadTempStringPtr (vm.globalInt st.a) offset size,
          vm.Inside x) ↔ _ := inside_prGetReadTempStringPtr_iff hn hsize.1
      obtain ⟨x, hx⟩ : ∃ x, vm.prGetReadTempStringPtr (vm.globalInt st.a) offset size = some x := by
        simp [prGetReadTempStringPtr, hn]
      simp only [hx, Option.mem_def, Option.some.injEq, forall_eq'] at hin
      simp [hx, safe_ran, hw.inside_glob, ha, hb, hin, and_assoc]
  · have hp := (hw.readFail_iff hsize.2).1 hfail
    have hin : vm.Inside ⟨.hunk, i.toNat, size⟩ := hw.inside_hunk.2 (by omega)
    simp [hfail, safe_ran, hw.inside_glob, ha, hb, hin]

theorem safe_loadp_iff (hw : vm.Wf) (hst : st.Clean vm) {scale dest : ℕ} (hsize : 0 < size ∧ size ≤ 12) :
    (vm.loadp st scale size dest).Safe vm ↔
      LoadpMeets vm st (vm.globalInt st.a + vm.globalInt st.b * BitVec.ofNat 32 scale)
        (vm.globalInt st.b * BitVec.ofNat 32 scale).toInt size dest := by
  simp only [loadp]
  rw [safe_loadpAt_iff hw hst hsize, BitVec.toInt_signExtend_of_le (by omega)]

/-! ## Fields -/

theorem safe_storef_iff (hw : vm.Wf) (hst : st.Clean vm) (hsize : 0 < size) :
    (vm.storef st size).Safe vm ↔ StorefMeets vm st size := by
  have ha := hw.fits_word hst.a_lt
  have hb := hw.fits_word hst.b_lt
  simp only [storef, StorefMeets]
  by_cases he : vm.numEdicts ≤ (vm.globalInt st.a).toNat
  · simp [he, safe_ran, hw.inside_glob, ha, Nat.not_lt.2 he]
  · cases hed : vm.edicttable (vm.globalInt st.a).toNat with
    | none => simp [he, safe_ran, hw.inside_glob, ha, hb]
    | some ed =>
      cases hro : ed.readonly with
      | true => simp [he, hro, safe_ran, hw.inside_glob, ha, hb]
      | false =>
        generalize vm.globalInt st.b + vm.fieldadjust = i
        have hmul : (i * 4).toNat = i.toNat * 4 % 2 ^ 32 := BitVec.toNat_mul i 4
        generalize (i * 4).toNat = field at hmul ⊢
        by_cases hfield : ed.fieldsize ≤ field
        · simp [he, hro, hfield, Nat.not_lt.2 hfield, safe_ran, hw.inside_glob, ha, hb]
        · obtain ⟨p, hp⟩ : ∃ p, ed.fields = some p := by
            have hsome := mt (hw.fieldsize_eq_zero _ ed hed) (by omega)
            exact Option.ne_none_iff_exists'.1 hsome
          have hblock := hw.fields_inBlock _ ed p hed hp
          have hused := hw.used_le
          have hint := toInt_eq_toNat_cond i
          have hlt := i.isLt
          have hin : vm.Inside (ed.field (vm.globalInt st.a).toNat i.toInt size) ↔ _ :=
            hw.inside_field hed hp
          simp only [he, hro, hfield, if_false, Bool.false_eq_true, safe_ran, forall_mem_cons, not_mem_nil,
            false_implies, implies_true, and_true, hw.inside_glob, ha, hb, hin, true_and, Option.some.injEq, forall_eq',
            Nat.not_le.1 he, Nat.not_le.1 hfield, true_implies, hp, Option.mem_def]
          simp only [← and_assoc]
          refine and_congr_left fun _ => ?_
          split_ifs at hint <;> omega

theorem safe_load_iff (hw : vm.Wf) (hst : st.Clean vm) {invalid : ℕ} (hwords : 0 < words ∧ words ≤ 3) :
    (vm.load st words invalid).Safe vm ↔ LoadMeets vm st words invalid := by
  have ha := hw.fits_word hst.a_lt
  have hb := hw.fits_word hst.b_lt
  have hc := hw.fits_word hst.c_lt
  simp only [load, LoadMeets]
  by_cases he : vm.numEdicts ≤ (vm.globalInt st.a).toNat
  · simp [he, safe_ran, hw.inside_glob, ha, Nat.not_lt.2 he]
  · cases hed : vm.edicttable (vm.globalInt st.a).toNat with
    | none => simp [he, Nat.not_le.1 he, safe_ran, not_inside_null]
    | some ed =>
      generalize vm.globalInt st.b + vm.fieldadjust = i
      have hmul : ((i + BitVec.ofNat 32 words) * 4).toNat =
          (i + BitVec.ofNat 32 words).toNat * 4 % 2 ^ 32 := BitVec.toNat_mul _ 4
      rw [BitVec.toNat_add, toNat_ofNat] at hmul
      generalize ((i + BitVec.ofNat 32 words) * 4).toNat = last at hmul ⊢
      by_cases hfield : ed.fieldsize < last
      · simp [he, hfield, Nat.not_le.2 hfield, Nat.not_le.1 he, safe_ran, hw.inside_glob, ha, hb, hc]
      · cases hp : ed.fields with
        | none =>
          simp [he, hfield, Nat.not_le.1 he, Nat.not_lt.1 hfield, safe_ran, not_inside_field hp, hp]
        | some p =>
          have hblock := hw.fields_inBlock _ ed p hed hp
          have hused := hw.used_le
          have hint := toInt_eq_toNat_cond i
          have hlt := i.isLt
          have hin : vm.Inside (ed.field (vm.globalInt st.a).toNat i.toInt (4 * words)) ↔ _ :=
            hw.inside_field hed hp
          simp only [he, hfield, if_false, safe_ran, forall_mem_cons, not_mem_nil, false_implies, implies_true,
            and_true, hw.inside_glob, ha, hb, hin, true_and, Option.some.injEq, exists_eq_left', hp, Nat.not_le.1 he,
            Nat.not_lt.1 hfield, true_implies]
          simp only [← and_assoc]
          refine and_congr_left fun _ => ?_
          split_ifs at hint <;> omega

/-! ## Arrays of globals -/

theorem Wf.indexMeets_iff (hw : vm.Wf) {i : ℤ} (hlt : words ≤ vm.numglobals + 1 → 0 ≤ i ∧ i + words ≤ vm.numglobals) :
    IndexMeets vm i words ↔ vm.Fits i (4 * words) := by
  have hle := hw.globals_le
  refine ⟨fun h => h.elim (fun hn => ?_) id, .inr⟩
  have hlast := hlt hn
  constructor <;> omega

theorem safe_loada_iff (hw : vm.Wf) (hst : st.Clean vm) (hwords : 0 < words ∧ words ≤ 3) :
    (vm.loada st words).Safe vm ↔ LoadaMeets vm st words := by
  have hb := hw.fits_word hst.b_lt
  simp only [loada, LoadaMeets]
  generalize BitVec.ofNat 32 st.a + vm.globalInt st.b = i
  by_cases hbad : BitVec.ofNat 64 vm.numglobals - BitVec.ofNat 64 (words - 1) ≤ i.signExtend 64
  · simp [hbad, safe_fault]
  · have hused := hw.used_le
    have hle := hw.globals_le
    have hint := toInt_eq_toNat_cond (i.signExtend 64)
    have hlt := (i.signExtend 64).isLt
    rw [BitVec.toInt_signExtend_of_le (by omega)] at hint
    have hfits : IndexMeets vm i.toInt words ↔ vm.Fits i.toInt (4 * words) := by
      simp only [le_def, toNat_sub, toNat_ofNat] at hbad
      refine hw.indexMeets_iff fun hn => ?_
      split_ifs at hint <;> omega
    simp [hbad, safe_ran, hw.inside_glob, hb, hfits]

/-- The test of a load or a store through an index. -/
theorem Wf.indexMeets_of_not_badIndex (hw : vm.Wf) {i : BitVec 32}
    (hwords : 0 < words ∧ words ≤ 3) (hbad : ¬vm.badIndex i words) :
    IndexMeets vm i.toInt words ↔ vm.Fits i.toInt (4 * words) := by
  have hle := hw.globals_le
  have hused := hw.used_le
  have hint := toInt_eq_toNat_cond i
  have hlt := i.isLt
  simp only [badIndex, not_or, le_def, toNat_sub, toNat_ofNat] at hbad
  refine hw.indexMeets_iff fun hn => ?_
  split_ifs at hint <;> omega

theorem safe_gload_iff (hw : vm.Wf) (hst : st.Clean vm) (hwords : 0 < words ∧ words ≤ 3) :
    (vm.gload st words).Safe vm ↔ GloadMeets vm st words := by
  have ha := hw.fits_word hst.a_lt
  simp only [gload, GloadMeets]
  by_cases hbad : vm.badIndex (vm.globalInt st.a) words
  · simp [hbad, safe_fault]
  · have hfits := hw.indexMeets_of_not_badIndex hwords hbad
    simp [hbad, safe_ran, hw.inside_glob, ha, hfits]

theorem safe_gstorep_iff (hw : vm.Wf) (hst : st.Clean vm) (hwords : 0 < words ∧ words ≤ 3) :
    (vm.gstorep st words).Safe vm ↔ GstorepMeets vm st words := by
  have hb := hw.fits_word hst.b_lt
  simp only [gstorep, GstorepMeets]
  by_cases hbad : vm.badIndex (vm.globalInt st.b) words
  · simp [hbad, safe_fault]
  · have hfits := hw.indexMeets_of_not_badIndex hwords hbad
    simp [hbad, safe_ran, hw.inside_glob, hb, hfits]

theorem safe_fetchGbl_iff (hw : vm.Wf) (hst : st.Clean vm) (width : IntSize) (words : ℕ) :
    (vm.fetchGbl st width words).Safe vm ↔ FetchGblMeets vm st width words := by
  have hb := hw.fits_word hst.b_lt
  simp only [fetchGbl, FetchGblMeets]
  generalize operandIndex width st.a (-1) = last
  split_ifs with hlast
  · simp [hlast, safe_fault]
  · simp [hlast, safe_ran, hw.inside_glob, hb]

end Vm

/-! ## Every opcode -/

/-- Sizes and scales that the machine has. -/
def MemFamily.Valid : MemFamily → Prop
  | .storep scale size _ => (0 < scale ∧ scale ≤ 4) ∧ 0 < size ∧ size ≤ 12
  | .storef size => 0 < size
  | .load words _ | .loada words | .gload words | .gstorep words => 0 < words ∧ words ≤ 3
  | .loadp _ size _ => 0 < size ∧ size ≤ 12
  | .modifyp size _ _ => size ≤ 12
  | .addressOf | .loadpConv | .pointerArith _ | .loadpFloat | .fetchGbl _ => True

theorem MemOp.family_valid (op : MemOp) : op.family.Valid := by
  cases op <;> simp [MemOp.family, MemFamily.Valid]

/-- The condition under which an opcode stays inside. -/
def MemOp.Meets (vm : Vm) (st : QcStatement) (width : IntSize) (op : MemOp) : Prop :=
  match op.family with
  | .storep scale size value => Vm.StorepMeets vm st scale size value
  | .storef size => Vm.StorefMeets vm st size
  | .load words invalid => Vm.LoadMeets vm st words invalid
  | .loadpConv => Vm.LoadpConvMeets vm st
  | .loada words => Vm.LoadaMeets vm st words
  | .loadpFloat =>
    let f := vm.globalInt st.b
    Vm.LoadpMeets vm st (vm.globalInt st.a + vm.toInt f) (vm.toSize f).toInt 1 4
  | .loadp scale size dest =>
    let offset := vm.globalInt st.b * BitVec.ofNat 32 scale
    Vm.LoadpMeets vm st (vm.globalInt st.a + offset) offset.toInt size dest
  | .fetchGbl words => Vm.FetchGblMeets vm st width words
  | .modifyp size value dest => Vm.ModifypMeets vm st size value dest
  | .gload words => Vm.GloadMeets vm st words
  | .gstorep words => Vm.GstorepMeets vm st words
  | .addressOf | .pointerArith _ => True

/-- A statement that was not made invalid has operands that are globals. -/
theorem clean_of_mem {vm : Vm} {hexencalling : Bool} {sts : List QcStatement} {st : QcStatement}
    {op : MemOp} (hst : st ∈ prCleanUpStatements vm hexencalling sts) (hop : st.op = .mem op) :
    st.Clean vm := by
  obtain ⟨st₀, -, hst₀⟩ := mem_map.1 hst
  unfold prCleanUpStatement at hst₀
  extract_lets s₁ s₂ s₃ at hst₀
  -- Each test that fails leaves the statement as it is, and none makes a memory opcode.
  have hc : ¬(vm.numglobals + 3 ≤ s₃.c ∧ s₃.op ≠ .boundcheck ∧ s₃.op ≠ .caserange) := by
    intro h
    rw [if_pos h] at hst₀
    simp [← hst₀] at hop
  rw [if_neg hc] at hst₀
  have hb : ¬(vm.numglobals + 3 ≤ s₂.b ∧ ¬s₂.op.JumpsByB) := by
    intro h
    simp [← hst₀, s₃, h] at hop
  have h₃ : s₃ = s₂ := if_neg hb
  rw [h₃] at hst₀ hc
  have ha : ¬(vm.numglobals + 3 ≤ s₁.a ∧ s₁.op ≠ .goto) := by
    intro h
    simp [← hst₀, s₂, h] at hop
  have h₂ : s₂ = s₁ := if_neg ha
  rw [h₂] at hst₀ hc hb
  rw [hst₀] at ha hb hc
  have hjump : ¬st.op.JumpsByB := by simp [hop, Opcode.JumpsByB]
  constructor
  · simpa [hop] using ha
  · simpa [hjump] using hb
  · simpa [hop] using hc

/-- The opcodes that go through pointers, indices, fields and temp strings stay inside the sandbox
just when their operands meet the condition of the opcode. -/
theorem exec_safe_iff {vm : Vm} (hw : vm.Wf) {hexencalling : Bool} {sts : List QcStatement}
    {st : QcStatement} {op : MemOp} (hst : st ∈ prCleanUpStatements vm hexencalling sts)
    (hop : st.op = .mem op) (width : IntSize) :
    (vm.exec st width op).Safe vm ↔ op.Meets vm st width := by
  have hclean := clean_of_mem hst hop
  have hvalid := op.family_valid
  unfold Vm.exec MemOp.Meets
  cases hf : op.family with
  | storep scale size value =>
    rw [hf] at hvalid
    exact Vm.safe_storep_iff hw hclean hvalid.1 hvalid.2
  | storef size =>
    rw [hf] at hvalid
    exact Vm.safe_storef_iff hw hclean hvalid
  | addressOf => exact iff_true_intro (Vm.safe_addressOf hw hclean)
  | load words invalid =>
    rw [hf] at hvalid
    exact Vm.safe_load_iff hw hclean hvalid
  | loadpConv => exact Vm.safe_loadpConv_iff hw hclean
  | pointerArith both => exact iff_true_intro (Vm.safe_pointerArith hw hclean both)
  | loada words =>
    rw [hf] at hvalid
    exact Vm.safe_loada_iff hw hclean hvalid
  | loadpFloat => exact Vm.safe_loadpAt_iff hw hclean (by omega)
  | loadp scale size dest =>
    rw [hf] at hvalid
    exact Vm.safe_loadp_iff hw hclean hvalid
  | fetchGbl words => exact Vm.safe_fetchGbl_iff hw hclean width words
  | modifyp size value dest =>
    rw [hf] at hvalid
    exact Vm.safe_modifyp_iff hw hclean hvalid
  | gload words =>
    rw [hf] at hvalid
    exact Vm.safe_gload_iff hw hclean hvalid
  | gstorep words =>
    rw [hf] at hvalid
    exact Vm.safe_gstorep_iff hw hclean hvalid

/-! ## A load at the end of the block -/

namespace LoadAtEnd

/-- A block of 64 bytes with four globals, the first of which points two bytes before the end. -/
def machine : Vm where
  mem offset := if offset = 4 then 62 else 0
  addressableused := 64
  globals := 4
  numglobals := 4
  numEdicts := 0
  edicttable _ := none
  fieldadjust := 0
  maxtempstrings := 0
  tempstrings _ := none
  intJunk _ := 0
  sizeJunk _ := 0

theorem machine_wf : machine.Wf where
  four_le_globals := by decide
  globals_le := by decide
  used_le := by decide
  fieldsize_eq_zero _ _ h := by cases h
  fields_inBlock _ _ _ h := by cases h

def statement : QcStatement := ⟨.mem .loadpItof, 0, 1, 2⟩

theorem statement_mem : statement ∈ prCleanUpStatements machine false [statement] := by
  have hclean : prCleanUpStatement (machine.numglobals + 3) false statement = statement := by rfl
  simp [prCleanUpStatements, hclean]

/-- Four bytes are read of which two are in the block. -/
theorem outside : ¬Vm.LoadpConvMeets machine statement := by
  unfold Vm.LoadpConvMeets
  decide

end LoadAtEnd

theorem exec_safe_iff_loadpItof : (LoadAtEnd.machine.exec LoadAtEnd.statement .int16
      .loadpItof).Safe LoadAtEnd.machine ↔
    MemOp.loadpItof.Meets LoadAtEnd.machine LoadAtEnd.statement .int16 :=
  exec_safe_iff LoadAtEnd.machine_wf LoadAtEnd.statement_mem rfl .int16

/-- A load that tests the size of a `char` reads past the end of the block. -/
theorem exec_loadpItof_unsafe :
    ¬∀ (vm : Vm) (hexencalling : Bool) (sts : List QcStatement) (st : QcStatement) (op : MemOp)
        (width : IntSize), vm.Wf → st ∈ prCleanUpStatements vm hexencalling sts →
      st.op = .mem op → (vm.exec st width op).Safe vm := by
  intro hsafe
  have hload := hsafe LoadAtEnd.machine false [LoadAtEnd.statement] LoadAtEnd.statement .loadpItof
    .int16 LoadAtEnd.machine_wf LoadAtEnd.statement_mem rfl
  exact LoadAtEnd.outside ((Vm.safe_loadpConv_iff LoadAtEnd.machine_wf
    (clean_of_mem LoadAtEnd.statement_mem rfl)).1 hload)

end FteQuake
