import FteQuake.Common.Sizebuf
import FteQuake.Lib.BoundedMemory
import FteQuake.Lib.Words
import Mathlib.Data.List.Forall2

/-!
# Growing the addressable memory of the QuakeC machine

`PRAddressableExtend` of `initlib.c` takes a region behind the used part of the addressable block.
Where the block has no room it asks `malloc` for a larger one, and `PRAddressableRelocate` moves the
pointers that the machine keeps. The main result says when that is transparent: exactly when there
is room in the block.

An address of the host is a natural number, and 0 is `NULL`. The bytes of the block are by offset;
a fresh block holds anything. Sizes are natural numbers, cut to 64 bits where the source adds them
and to a signed 32 bits where it keeps them in an `int`. The callback that tells the engine of a
move has no part in the pointers of the machine.
-/

namespace FteQuake.Addressable

/-! ## The machine -/

/-- The pointers that the machine keeps: the fields of the entries of the edict table that are not
null, the string table, the globals and the strings of each progs, the names of the fields and the
stack of locals. -/
structure Pointers where
  fields : List (Option ℕ)
  stringtable : ℕ
  progs : List (ℕ × ℕ)
  names : List ℕ
  localstack : ℕ

def Pointers.all (p : Pointers) : List ℕ :=
  p.stringtable :: p.localstack ::
    (p.fields.reduceOption ++ p.progs.map Prod.fst ++ p.progs.map Prod.snd ++ p.names)

/-- The fields of `prinst_t` that belong to the addressable block. It may be moved if
`addressablerelocated` is set. -/
structure Prinst where
  addressablehunk : ℕ
  addressableused : ℕ
  addressablesize : ℕ
  stringtablesize : ℕ
  mem : Mem QByte
  pointers : Pointers
  addressablerelocated : Bool

/-- The arguments of a call: the data at `src`, unless that is null, have `srcsize` bytes. -/
structure Extension where
  src : Option (List QByte)
  srcsize : ℕ
  pad : ℤ
  srcsize_lt : srcsize < 2 ^ 64
  pad_mem : -2 ^ 31 ≤ pad ∧ pad < 2 ^ 31
  length_src : ∀ xs ∈ src, xs.length = srcsize

namespace Extension

variable (c : Extension)

/-- The size of the region, rounded up to 4. -/
def rounded : ℕ := ((c.srcsize + c.pad + 4) % 2 ^ 64).toNat / 4 * 4

/-- `ammount`: an `int`. -/
def ammount : ℤ := Int.bmod c.rounded (2 ^ 32)

/-- What is cleared behind the data: an `int`, which becomes the size of a `memset`. -/
def cleared : ℕ := ((Int.bmod (c.ammount - c.srcsize) (2 ^ 32) + 1) % 2 ^ 64).toNat

end Extension

/-! ## The call -/

/-- What `PRAddressableRelocate` does to each pointer. -/
def movePointer (oldb newb : ℕ) (oldlen : ℤ) (p : ℕ) : ℕ :=
  if oldb ≤ p ∧ (p : ℤ) < oldb + oldlen then p - oldb + newb else p

/-- `PRAddressableRelocate`: it does not know of the stack of locals. -/
def Pointers.prAddressableRelocate (p : Pointers) (oldb newb : ℕ) (oldlen : ℤ) : Pointers :=
  let move := movePointer oldb newb oldlen
  { p with
    fields := p.fields.map (Option.map move)
    stringtable := move p.stringtable
    progs := p.progs.map (Prod.map move move)
    names := p.names.map move }

/-- What a call of `PRAddressableExtend` comes to. A fault is an access outside the block. -/
inductive Outcome
  | error
  | fault
  | returned (ptr : ℕ) (vm : Prinst)

/-- `memcpy`, unless `src` is null. -/
def memcpy (size : ℕ) (m : Mem QByte) (p : ℕ) (src : Option (List QByte)) : Option (Mem QByte) :=
  match src with
  | some xs => m.puts size p xs
  | none => some m

/-- `memset` to 0. -/
def memset (size : ℕ) (m : Mem QByte) (p n : ℕ) : Option (Mem QByte) :=
  if p + n ≤ size then some (m.fill p n 0) else none

theorem Outcome.exists_returned {r : Outcome} (herror : r ≠ .error) (hfault : r ≠ .fault) :
    ∃ ptr vm, r = .returned ptr vm := by
  cases r with
  | error => exact absurd rfl herror
  | fault => exact absurd rfl hfault
  | returned ptr vm => exact ⟨ptr, vm, rfl⟩

namespace Prinst

variable (vm : Prinst)

/-- What `malloc` gives: a block that is not the one there is. -/
structure Fresh where
  newblock : ℕ
  newblock_ne : newblock ≠ vm.addressablehunk

variable (c : Extension) (fresh : Option vm.Fresh) (junk : Mem QByte)

/-- What `addressableused` becomes. -/
def total : ℕ := ((vm.addressableused + c.ammount) % 2 ^ 64).toNat

/-- The size of a larger block: an `int`. -/
def newsize : ℤ := Int.bmod (((vm.total c + 2 ^ 20) % 2 ^ 64 / 2 ^ 20 * 2 ^ 20 : ℕ) : ℤ) (2 ^ 32)

/-- The machine in a larger block. The bytes of the old one are not copied. -/
def moved (f : vm.Fresh) : Prinst :=
  { vm with
    pointers := vm.pointers.prAddressableRelocate vm.addressablehunk f.newblock
      (Int.bmod vm.addressableused (2 ^ 32))
    addressablehunk := f.newblock
    addressablesize := (vm.newsize c).toNat
    mem := junk }

/-- The attempt to find a larger block. No `malloc` gives one of a negative size. -/
def grow : Prinst :=
  match fresh with
  | some f => if vm.addressablerelocated ∧ 0 ≤ vm.newsize c then vm.moved c junk f else vm
  | none => vm

/-- The end of the call, in a block with room. -/
def commit : Outcome :=
  let ptr := ((vm.total c - c.ammount) % 2 ^ 64).toNat
  match (memcpy vm.addressablesize vm.mem ptr c.src).bind fun m =>
    memset vm.addressablesize m (ptr + c.srcsize) c.cleared with
  | none => .fault
  | some mem =>
    .returned (vm.addressablehunk + ptr)
      { vm with addressableused := vm.total c, stringtablesize := vm.total c, mem := mem }

/-- The block that the call goes on with. -/
def makeRoom : Prinst := if vm.addressablesize ≤ vm.total c then vm.grow c fresh junk else vm

/-- `PRAddressableExtend`. -/
def prAddressableExtend : Outcome :=
  let vm := vm.makeRoom c fresh junk
  if vm.addressablesize ≤ vm.total c then .error else vm.commit c

end Prinst

/-! ## What transparency is -/

/-- A pointer into the used part of the block, or just behind it, denotes the same offset. -/
def SameOffset (vm vm' : Prinst) (p q : ℕ) : Prop :=
  vm.addressablehunk ≤ p → p ≤ vm.addressablehunk + vm.addressableused →
    vm'.addressablehunk ≤ q ∧ q - vm'.addressablehunk = p - vm.addressablehunk

/-- The call was transparent, and gave what was asked for. -/
structure Transparent (c : Extension) (vm : Prinst) (ptr : ℕ) (vm' : Prinst) : Prop where
  kept : ∀ i < vm.addressableused, vm'.mem i = vm.mem i
  pointers : List.Forall₂ (SameOffset vm vm') vm.pointers.all vm'.pointers.all
  region : ptr = vm'.addressablehunk + vm.addressableused
  aligned : vm.addressableused % 4 = 0
  holds : vm.addressableused + c.srcsize ≤ vm'.addressableused
  padded : vm.addressableused + c.srcsize + c.pad ≤ vm'.addressableused
  source : ∀ xs ∈ c.src, vm'.mem.slice vm.addressableused c.srcsize = xs
  zeros : ∀ i, vm.addressableused + c.srcsize ≤ i → i ≤ vm'.addressableused → vm'.mem i = 0
  inside : vm'.addressableused < vm'.addressablesize

/-- There is room in the block for the region and a byte. -/
def Extension.Fits (c : Extension) (vm : Prinst) : Prop :=
  c.srcsize ≤ c.rounded ∧ vm.addressableused + c.rounded < vm.addressablesize

/-- The machines that a run comes to from `PR_Configure`: QuakeC and the engine store into the block
and set the pointers, all but the string table, and the block is extended. -/
inductive Reached : Prinst → Prop
  | configure (hunk size stringtablesize : ℕ) (mem : Mem QByte) (p : Pointers) (relocated : Bool)
      (hsize : size ≤ 2 ^ 31) (hp : p.stringtable = hunk) :
      Reached ⟨hunk, 0, size, stringtablesize, mem, p, relocated⟩
  | store (vm : Prinst) (mem : Mem QByte) : Reached vm → Reached { vm with mem := mem }
  | point (vm : Prinst) (p : Pointers) (hp : p.stringtable = vm.pointers.stringtable) :
      Reached vm → Reached { vm with pointers := p }
  | extend (vm vm' : Prinst) (c : Extension) (fresh : Option vm.Fresh) (junk : Mem QByte) (ptr : ℕ)
      (hfits : c.Fits vm) (hcall : vm.prAddressableExtend c fresh junk = .returned ptr vm') :
      Reached vm → Reached vm'

/-! ## Runs -/

/-- What holds of every machine that a run comes to. -/
structure Inv (vm : Prinst) : Prop where
  aligned : vm.addressableused % 4 = 0
  used_le : vm.addressableused ≤ vm.addressablesize
  size_le : vm.addressablesize ≤ 2 ^ 31
  stringtable : vm.pointers.stringtable = vm.addressablehunk

theorem Inv.used_lt {vm : Prinst} (h : Inv vm) : vm.addressableused < 2 ^ 64 := by
  have hle := h.used_le
  have hsize := h.size_le
  omega

section Stores

variable {size p n : ℕ} {m m' : Mem QByte} {src : Option (List QByte)}

theorem memcpy_of_le (m : Mem QByte) (h : ∀ xs ∈ src, p + xs.length ≤ size) :
    ∃ m', memcpy size m p src = some m' ∧ ∀ xs ∈ src, m'.slice p xs.length = xs := by
  cases src with
  | none => exact ⟨m, rfl, nofun⟩
  | some xs =>
    refine ⟨m.blit p xs, Mem.puts_of_le (h xs rfl) m, ?_⟩
    rintro ys ⟨⟩
    exact Mem.slice_blit_self m p xs

theorem memcpy_below (h : memcpy size m p src = some m') {i : ℕ} (hi : i < p) : m' i = m i := by
  cases src with
  | none =>
    cases h
    rfl
  | some xs =>
    rw [memcpy] at h
    rw [Mem.eq_blit_of_puts h]
    exact Mem.blit_apply_lt m xs hi

theorem memset_below (h : memset size m p n = some m') {i : ℕ} (hi : i < p) : m' i = m i := by
  obtain ⟨-, hfill⟩ := Option.ite_none_right_eq_some.1 h
  cases hfill
  exact Mem.fill_apply_of_out m 0 (.inl hi)

end Stores

variable {vm vm' : Prinst} {c : Extension} {ptr : ℕ}

/-- The region begins behind the bytes in use. -/
theorem Prinst.total_sub (c : Extension) (hused : vm.addressableused < 2 ^ 64) :
    ((vm.total c - c.ammount) % 2 ^ 64).toNat = vm.addressableused := by
  unfold total
  omega

/-- The end of a call leaves everything alone that lies before the region. -/
theorem Prinst.commit_returned (hused : vm.addressableused < 2 ^ 64) (h : vm.commit c = .returned ptr vm') :
    ∃ mem, vm' = { vm with addressableused := vm.total c, stringtablesize := vm.total c, mem := mem } ∧
      ∀ i < vm.addressableused, mem i = vm.mem i := by
  rw [commit, total_sub c hused] at h
  split at h
  · cases h
  · next mem hmem =>
    cases h
    obtain ⟨m, hcopy, hset⟩ := Option.bind_eq_some_iff.1 hmem
    refine ⟨mem, rfl, ?_⟩
    intro i hi
    rw [memset_below hset (by omega), memcpy_below hcopy hi]

theorem Prinst.commit_of_null (hused : vm.addressableused < 2 ^ 64) (hsrc : c.src = none)
    (hroom : vm.addressableused + c.srcsize + c.cleared ≤ vm.addressablesize) :
    ∃ ptr vm', vm.commit c = .returned ptr vm' := by
  have hset : memset vm.addressablesize vm.mem (vm.addressableused + c.srcsize) c.cleared =
      some (vm.mem.fill (vm.addressableused + c.srcsize) c.cleared 0) := if_pos hroom
  rw [commit, total_sub c hused, hsrc, memcpy, Option.bind_some, hset]
  exact ⟨_, _, rfl⟩

theorem Extension.rounded_mod (c : Extension) : c.rounded % 4 = 0 := by
  unfold rounded
  omega

/-! ### A call with room -/

section Fits

variable (h : c.Fits vm) (hvm : Inv vm)
include h hvm

theorem Extension.Fits.ammount : c.ammount = c.rounded := by
  obtain ⟨-, hroom⟩ := h
  have hsize := hvm.size_le
  exact Int.bmod_eq_of_le (by omega) (by omega)

theorem Extension.Fits.total : vm.total c = vm.addressableused + c.rounded := by
  obtain ⟨-, hroom⟩ := id h
  have hsize := hvm.size_le
  rw [Prinst.total, h.ammount hvm]
  omega

theorem Extension.Fits.cleared : c.srcsize + c.cleared = c.rounded + 1 := by
  obtain ⟨hle, hroom⟩ := id h
  have hsize := hvm.size_le
  have hmod := c.rounded_mod
  have hfill : Int.bmod (c.ammount - c.srcsize) (2 ^ 32) = c.rounded - c.srcsize := by
    rw [h.ammount hvm]
    exact Int.bmod_eq_of_le (by omega) (by omega)
  rw [Extension.cleared, hfill]
  omega

/-- The region holds at least what was asked for. -/
theorem Extension.Fits.padded : c.srcsize + c.pad ≤ c.rounded := by
  obtain ⟨hle, hroom⟩ := id h
  obtain ⟨hneg, hpad⟩ := c.pad_mem
  have hsize := hvm.size_le
  have hmem : c.rounded = ((c.srcsize + c.pad + 4) % 2 ^ 64).toNat / 4 * 4 := rfl
  omega

/-- **A call with room** moves nothing and clears what lies behind the data. -/
theorem Extension.Fits.extend (fresh : Option vm.Fresh) (junk : Mem QByte) :
    ∃ mem, vm.prAddressableExtend c fresh junk =
        .returned (vm.addressablehunk + vm.addressableused)
          { vm with
            addressableused := vm.addressableused + c.rounded
            stringtablesize := vm.addressableused + c.rounded
            mem := mem } ∧
      (∀ i < vm.addressableused, mem i = vm.mem i) ∧
      (∀ xs ∈ c.src, mem.slice vm.addressableused c.srcsize = xs) ∧
      ∀ i, vm.addressableused + c.srcsize ≤ i → i ≤ vm.addressableused + c.rounded → mem i = 0 := by
  obtain ⟨hle, hroom⟩ := id h
  have hsize := hvm.size_le
  have htotal := h.total hvm
  have hcleared := h.cleared hvm
  have hin : ¬vm.addressablesize ≤ vm.total c := by omega
  have hcopies : ∀ xs ∈ c.src, vm.addressableused + xs.length ≤ vm.addressablesize := by
    intro xs hxs
    rw [c.length_src xs hxs]
    omega
  obtain ⟨m, hcopy, hsrc⟩ := memcpy_of_le vm.mem hcopies
  have hset : memset vm.addressablesize m (vm.addressableused + c.srcsize) c.cleared =
      some (m.fill (vm.addressableused + c.srcsize) c.cleared 0) := if_pos (by omega)
  refine ⟨m.fill (vm.addressableused + c.srcsize) c.cleared 0, ?_, ?_, ?_, ?_⟩
  · rw [Prinst.prAddressableExtend, Prinst.makeRoom, if_neg hin]
    refine (if_neg hin).trans ?_
    rw [Prinst.commit, Prinst.total_sub c hvm.used_lt, hcopy, Option.bind_some, hset, htotal]
  · intro i hi
    rw [Mem.fill_apply_of_out m 0 (.inl (by omega)), memcpy_below hcopy hi]
  · intro xs hxs
    have hlen := c.length_src xs hxs
    have hxsrc := hsrc xs hxs
    rw [hlen] at hxsrc
    rw [← hxsrc]
    apply Mem.slice_congr
    intro a _ ha
    exact Mem.fill_apply_of_out m 0 (.inl ha)
  · intro i hlow hhigh
    have hlast : i < vm.addressableused + c.srcsize + c.cleared := by
      rw [Nat.add_assoc, hcleared]
      exact Nat.lt_succ_of_le hhigh
    exact Mem.fill_apply_of_in m 0 hlow hlast

theorem Extension.Fits.transparent {fresh : Option vm.Fresh} {junk : Mem QByte}
    (hcall : vm.prAddressableExtend c fresh junk = .returned ptr vm') : Transparent c vm ptr vm' := by
  obtain ⟨mem, hextend, hkept, hsrc, hzeros⟩ := h.extend hvm fresh junk
  have hpadded := h.padded hvm
  obtain ⟨hle, hroom⟩ := h
  rw [hextend] at hcall
  cases hcall
  constructor
  · exact hkept
  · exact List.forall₂_same.2 fun p _ hp _ => ⟨hp, rfl⟩
  · rfl
  · exact hvm.aligned
  · exact Nat.add_le_add_left hle _
  · push_cast
    omega
  · exact hsrc
  · exact hzeros
  · exact hroom

theorem Extension.Fits.inv {fresh : Option vm.Fresh} {junk : Mem QByte}
    (hcall : vm.prAddressableExtend c fresh junk = .returned ptr vm') : Inv vm' := by
  obtain ⟨mem, hextend, -⟩ := h.extend hvm fresh junk
  have haligned := hvm.aligned
  have hmod := c.rounded_mod
  obtain ⟨hle, hroom⟩ := h
  rw [hextend] at hcall
  cases hcall
  exact ⟨by dsimp only; omega, hroom.le, hvm.size_le, hvm.stringtable⟩

end Fits

theorem Reached.inv (h : Reached vm) : Inv vm := by
  induction h with
  | configure hunk size stringtablesize mem p relocated hsize hp => exact ⟨rfl, Nat.zero_le _, hsize, hp⟩
  | store vm mem _ ih => exact ⟨ih.aligned, ih.used_le, ih.size_le, ih.stringtable⟩
  | point vm p hp _ ih => exact ⟨ih.aligned, ih.used_le, ih.size_le, hp.trans ih.stringtable⟩
  | extend vm vm' c fresh junk ptr hfits hcall _ ih => exact hfits.inv ih hcall

/-! ### A call without room -/

/-- The sizes of a transparent call that stays in the block are small enough. -/
theorem Transparent.fits (h : Transparent c vm ptr vm') (hvm : Inv vm)
    (htotal : vm'.addressableused = vm.total c) (hsize : vm'.addressablesize = vm.addressablesize) :
    c.Fits vm := by
  obtain ⟨hneg, hpad⟩ := c.pad_mem
  have hlt := c.srcsize_lt
  have hmax := hvm.size_le
  have hused := hvm.used_le
  have hholds := h.holds
  have hpadded := h.padded
  have hinside := h.inside
  rw [htotal] at hholds hpadded hinside
  rw [hsize] at hinside
  have hbounds : -2 ^ 31 ≤ c.ammount ∧ c.ammount < 2 ^ 31 :=
    ⟨Int.le_bmod (by norm_num), Int.bmod_lt (by norm_num)⟩
  have hsum : (vm.total c : ℤ) = vm.addressableused + c.ammount := by
    rw [Prinst.total] at hinside ⊢
    omega
  -- an `ammount` that holds the data was not cut
  have hammount : c.ammount = c.rounded := by
    have hr : c.rounded = ((c.srcsize + c.pad + 4) % 2 ^ 64).toNat / 4 * 4 := rfl
    have ha : c.ammount = Int.bmod c.rounded (2 ^ 32) := rfl
    rw [Int.bmod_def] at ha
    split_ifs at ha <;> omega
  constructor <;> omega

variable {junk : Mem QByte} {f : vm.Fresh}

/-- A block that is moved keeps neither its bytes nor, when it is empty, the string table. -/
theorem not_transparent_of_moved (hvm : Inv vm)
    (hhunk : vm'.addressablehunk = f.newblock) (hpointers : vm'.pointers = (vm.moved c junk f).pointers)
    (hmem : ∀ i < vm.addressableused, vm'.mem i = vm.mem i + 1) : ¬Transparent c vm ptr vm' := by
  intro h
  rcases Nat.eq_zero_or_pos vm.addressableused with hzero | hpos
  · have hall := h.pointers
    rw [hpointers] at hall
    obtain ⟨hsame, -⟩ := List.forall₂_cons.1 hall
    have hstay : (vm.moved c junk f).pointers.stringtable = vm.addressablehunk := by
      simp only [Prinst.moved, Pointers.prAddressableRelocate, movePointer, hvm.stringtable, hzero]
      rw [if_neg]
      rintro ⟨-, hlt⟩
      exact absurd hlt (by simp)
    obtain ⟨hle, hoff⟩ := hsame hvm.stringtable.ge (hvm.stringtable.le.trans (Nat.le_add_right _ _))
    rw [hstay, hhunk] at hle hoff
    rw [hvm.stringtable] at hoff
    exact f.newblock_ne (le_antisymm hle (by omega))
  · have hkept := h.kept 0 hpos
    rw [hmem 0 hpos] at hkept
    exact absurd hkept (by simp)

theorem Prinst.moved_addressableused :
    (vm.moved c junk f).addressableused = vm.addressableused := rfl

theorem Prinst.moved_addressablesize :
    (vm.moved c junk f).addressablesize = (vm.newsize c).toNat := by
  simp only [moved]

theorem Prinst.moved_total :
    (vm.moved c junk f).total c = vm.total c := by
  rw [total, total, moved_addressableused]

/-- A larger block that was found. -/
theorem Prinst.grow_eq {fresh : Option vm.Fresh} (hsize : vm.addressablesize ≤ vm.total c)
    (hgrown : ¬(vm.grow c fresh junk).addressablesize ≤ (vm.grow c fresh junk).total c) :
    ∃ f : vm.Fresh, vm.grow c fresh junk = vm.moved c junk f := by
  cases fresh with
  | none => exact absurd hsize hgrown
  | some f =>
    rw [grow] at hgrown ⊢
    split at hgrown
    · next hmoves => exact ⟨f, if_pos hmoves⟩
    · exact absurd hsize hgrown

/-- **A call that moves the block** hands out the bytes of the fresh one. -/
theorem Prinst.returned_moved (hused : vm.addressableused < 2 ^ 64) (f : vm.Fresh) (junk : Mem QByte)
    (hrelocated : vm.addressablerelocated) (hsize : vm.addressablesize ≤ vm.total c)
    (hnewsize : (vm.total c : ℤ) < vm.newsize c) (hsrc : c.src = none)
    (hroom : vm.addressableused + c.srcsize + c.cleared ≤ (vm.newsize c).toNat) :
    ∃ ptr vm', vm.prAddressableExtend c (some f) junk = .returned ptr vm' ∧
      ∀ i < vm.addressableused, vm'.mem i = junk i := by
  have hgrow : vm.makeRoom c (some f) junk = vm.moved c junk f := by
    rw [makeRoom, if_pos hsize]
    exact if_pos ⟨hrelocated, by omega⟩
  have hfit : ¬(vm.moved c junk f).addressablesize ≤ (vm.moved c junk f).total c := by
    rw [moved_addressablesize, moved_total]
    exact not_le.2 (Int.lt_toNat.2 hnewsize)
  rw [← moved_addressableused (f := f)] at hused hroom
  rw [← moved_addressablesize] at hroom
  obtain ⟨ptr, vm', hcommit⟩ := commit_of_null hused hsrc hroom
  obtain ⟨mem, hvm', hmem⟩ := commit_returned hused hcommit
  refine ⟨ptr, vm', ?_, ?_⟩
  · rw [prAddressableExtend, hgrow]
    exact (if_neg hfit).trans hcommit
  · rw [hvm']
    exact hmem

/-- **When a call is transparent.** In every run whose calls had room, a call that does not end in
`Sys_Error` is transparent, whatever a fresh block would hold, exactly when there is room for it in
the block there is. -/
theorem prAddressableExtend_transparent_iff (hvm : Reached vm) (c : Extension) (fresh : Option vm.Fresh)
    (hcall : ∀ junk, vm.prAddressableExtend c fresh junk ≠ .error) :
    (∀ junk, vm.prAddressableExtend c fresh junk ≠ .fault ∧
      ∀ ptr vm', vm.prAddressableExtend c fresh junk = .returned ptr vm' → Transparent c vm ptr vm') ↔
      c.Fits vm := by
  have hinv := hvm.inv
  constructor
  · intro h
    obtain ⟨hfault, hreturn⟩ := h fun i => vm.mem i + 1
    obtain ⟨ptr, vm', hreturned⟩ := Outcome.exists_returned (hcall _) hfault
    have htransparent := hreturn ptr vm' hreturned
    by_cases hsize : vm.addressablesize ≤ vm.total c
    · rw [Prinst.prAddressableExtend, Prinst.makeRoom, if_pos hsize] at hreturned
      by_cases hgrown : (vm.grow c fresh fun i => vm.mem i + 1).addressablesize ≤
          (vm.grow c fresh fun i => vm.mem i + 1).total c
      · cases (if_pos hgrown).symm.trans hreturned
      · replace hreturned := (if_neg hgrown).symm.trans hreturned
        obtain ⟨f, hf⟩ := Prinst.grow_eq hsize hgrown
        rw [hf] at hreturned
        have hused := hinv.used_lt
        rw [← Prinst.moved_addressableused (f := f)] at hused
        obtain ⟨mem, hvm', hmem⟩ := Prinst.commit_returned hused hreturned
        exact absurd htransparent
          (not_transparent_of_moved (f := f) hinv (by rw [hvm']; rfl) (by rw [hvm']) (by rwa [hvm']))
    · rw [Prinst.prAddressableExtend, Prinst.makeRoom, if_neg hsize] at hreturned
      obtain ⟨mem, hvm', -⟩ := Prinst.commit_returned hinv.used_lt ((if_neg hsize).symm.trans hreturned)
      exact htransparent.fits hinv (by rw [hvm']) (by rw [hvm'])
  · intro h junk
    obtain ⟨mem, hextend, -⟩ := h.extend hinv fresh junk
    refine ⟨?_, fun ptr vm' => h.transparent hinv⟩
    rw [hextend]
    exact Outcome.noConfusion

/-- A machine with 64 bytes, of which none is in use. -/
def configured : Prinst where
  addressablehunk := 4096
  addressableused := 0
  addressablesize := 64
  stringtablesize := 0
  mem := fun _ => 0
  pointers := ⟨[], 4096, [], [], 0⟩
  addressablerelocated := true

/-- A call for four bytes of data. -/
def fourBytes : Extension where
  src := some [1, 1, 1, 1]
  srcsize := 4
  pad := 0
  srcsize_lt := by decide
  pad_mem := by decide
  length_src := by
    rintro xs ⟨⟩
    rfl

/-- A call for 64 bytes. -/
def sixtyFourBytes : Extension where
  src := none
  srcsize := 64
  pad := 0
  srcsize_lt := by decide
  pad_mem := by decide
  length_src := nofun

/-- The machine after a call for four bytes. -/
def extended (mem : Mem QByte) : Prinst :=
  { configured with addressableused := 8, stringtablesize := 8, mem := mem }

theorem reached_configured : Reached configured := .configure 4096 64 0 _ _ true (by decide) rfl

theorem fits_fourBytes : fourBytes.Fits configured := ⟨by decide, by decide⟩

theorem returned_fourBytes (junk : Mem QByte) :
    ∃ ptr vm', configured.prAddressableExtend fourBytes none junk = .returned ptr vm' := by
  obtain ⟨mem, hextend, -⟩ := fits_fourBytes.extend reached_configured.inv none junk
  exact ⟨_, _, hextend⟩

theorem transparent_configured :
    configured.prAddressableExtend fourBytes none (fun _ => 0) ≠ .fault ∧
      ∀ ptr vm', configured.prAddressableExtend fourBytes none (fun _ => 0) = .returned ptr vm' →
        Transparent fourBytes configured ptr vm' := by
  refine (prAddressableExtend_transparent_iff reached_configured fourBytes none ?_).2 fits_fourBytes _
  intro junk
  obtain ⟨ptr, vm', hreturned⟩ := returned_fourBytes junk
  rw [hreturned]
  exact Outcome.noConfusion

theorem extended_total (mem : Mem QByte) : (extended mem).total sixtyFourBytes = 76 := by
  have hused : (extended mem).addressableused = 8 := rfl
  rw [Prinst.total, hused]
  decide

/-- The four bytes are lost when 64 more are asked for. -/
theorem not_transparent :
    ¬∀ vm, Reached vm → ∀ c fresh junk ptr vm',
      vm.prAddressableExtend c fresh junk = .returned ptr vm' → Transparent c vm ptr vm' := by
  intro h
  obtain ⟨mem, hextend, -, hsrc, -⟩ :=
    fits_fourBytes.extend reached_configured.inv none (fun _ => 0)
  have hrounded : fourBytes.rounded = 8 := by decide
  rw [hrounded] at hextend
  have hvm := Reached.extend _ _ _ _ _ _ fits_fourBytes hextend reached_configured
  have hvm : Reached (extended mem) := hvm
  have htotal := extended_total mem
  have hsize : (extended mem).addressablesize = 64 := rfl
  have hnewsize : (extended mem).newsize sixtyFourBytes = 2 ^ 20 := by
    unfold Prinst.newsize
    rw [htotal]
    rfl
  have hne : 8192 ≠ (extended mem).addressablehunk := show 8192 ≠ 4096 by decide
  have hroom : (extended mem).addressableused + sixtyFourBytes.srcsize + sixtyFourBytes.cleared ≤
      ((extended mem).newsize sixtyFourBytes).toNat := by
    rw [hnewsize]
    show 8 + sixtyFourBytes.srcsize + sixtyFourBytes.cleared ≤ _
    decide
  obtain ⟨ptr, vm', hreturned, hmem⟩ := Prinst.returned_moved hvm.inv.used_lt ⟨8192, hne⟩ (fun _ => 0) rfl
    (by omega) (by omega) rfl hroom
  have hcall := h _ hvm _ _ _ ptr vm' hreturned
  have hfirst : mem.slice 0 4 = [1, 1, 1, 1] := hsrc _ rfl
  have hpos : 0 < (extended mem).addressableused := Nat.succ_pos 7
  have hone : mem 0 = 1 := (List.cons.inj hfirst).1
  have hkept : vm'.mem 0 = mem 0 := hcall.kept 0 hpos
  rw [hmem 0 hpos, hone] at hkept
  exact absurd hkept (by decide)

end FteQuake.Addressable
