import FteQuake.Common.EntityState

/-!
# What the opcodes of the QuakeC machine access

The opcodes of `execloop.h` that go through a pointer, an array index, a field or a temp string,
each as the list of accesses it makes to memory. The bounds tests are those of the source, in the
widths that its types have. Values are read only where an address depends on them; what is stored
is left out.

An access to the addressable block is at an offset from the string table, which may be negative or
past the block. The globals and the fields of entities lie in the block. Float indices are bit
patterns; what the conversion of one that is out of range gives is a field of the machine.
-/

namespace FteQuake

open BinaryFloat

/-! ## The machine -/

/-- Where the bytes of an access are. -/
inductive Place
  /-- At an offset from the string table. -/
  | hunk
  /-- The fields of an entity, at an offset from the string table. -/
  | fields (edict : ℕ)
  /-- The value array of a temp string, which has `size` bytes. -/
  | temp (size : ℕ)
  /-- The static result of `PR_GetReadTempStringPtr`. -/
  | dummy
  /-- Behind a null pointer. -/
  | null

/-- An access of `size` bytes. -/
structure Access where
  place : Place
  offset : ℤ
  size : ℕ

/-- The fields of `edictrun_t` that bounds depend on. `fields` is an offset from the string table,
or null. -/
structure EdictRun where
  fields : Option ℤ
  fieldsize : ℕ
  readonly : Bool

/-- The `size` bytes of word `i` of the fields of entity `e`. -/
def EdictRun.field (ed : EdictRun) (e : ℕ) (i : ℤ) (size : ℕ) : Access :=
  match ed.fields with
  | some p => ⟨.fields e, p + 4 * i, size⟩
  | none => ⟨.null, 4 * i, size⟩

/-- The machine: its memory by offset from the string table, its globals, its entities and the
sizes of its temp strings. -/
structure Vm where
  mem : ℤ → QByte
  addressableused : ℕ
  globals : ℕ
  numglobals : ℕ
  numEdicts : ℕ
  edicttable : ℕ → Option EdictRun
  fieldadjust : BitVec 32
  maxtempstrings : ℕ
  tempstrings : ℕ → Option (BitVec 32)
  /-- `(int)` of a float that is out of range. -/
  intJunk : BitVec 32 → BitVec 32
  /-- `(size_t)` of a float that is out of range. -/
  sizeJunk : BitVec 32 → BitVec 64

/-- The end of an opcode: a fault, or a run that made some accesses. -/
inductive Outcome
  | fault
  | ran (accesses : List Access)

namespace Vm

variable (vm : Vm)

/-- The int that global `a` holds. -/
def globalInt (a : ℤ) : BitVec 32 :=
  let p := vm.globals + 4 * a
  vm.mem (p + 3) ++ vm.mem (p + 2) ++ vm.mem (p + 1) ++ vm.mem p

/-- The first `n` bytes of global `a`. -/
def glob (a : ℤ) (n : ℕ) : Access := ⟨.hunk, vm.globals + 4 * a, n⟩

/-- `(int)` of a float. -/
def toInt (f : BitVec 32) : BitVec 32 := (toSigned 32 f (trunc (val f))).getD (vm.intJunk f)

/-- `(size_t)` of a float. -/
def toSize (f : BitVec 32) : BitVec 64 :=
  if IsFinite f ∧ 0 ≤ trunc (val f) ∧ trunc (val f) < 2 ^ 64 then BitVec.ofInt 64 (trunc (val f))
  else vm.sizeJunk f

/-- `QCPOINTERWRITEFAIL`. -/
def writeFail (p : BitVec 32) (size : ℕ) : Prop :=
  BitVec.ofNat 64 vm.addressableused - 1 - BitVec.ofNat 64 size ≤ (p - 1).setWidth 64

/-- `QCPOINTERREADFAIL`. -/
def readFail (p : BitVec 32) (size : ℕ) : Prop :=
  BitVec.ofNat 64 vm.addressableused - BitVec.ofNat 64 size ≤ p.setWidth 64

instance (p : BitVec 32) (size : ℕ) : Decidable (vm.writeFail p size) :=
  inferInstanceAs (Decidable (_ ≤ _))

instance (p : BitVec 32) (size : ℕ) : Decidable (vm.readFail p size) :=
  inferInstanceAs (Decidable (_ ≤ _))

/-! ## Temp strings -/

/-- `STRING_SPECMASK`. -/
def stringSpecmask : BitVec 32 := 0xc0000000

/-- `STRING_TEMP`. -/
def stringTemp : BitVec 32 := 0x80000000

/-- The size of the temp string that a reference names. -/
def tempSize (str : BitVec 32) : Option (BitVec 32) :=
  let i := (str &&& ~~~stringSpecmask).toNat
  if str &&& stringSpecmask = stringTemp ∧ i < vm.maxtempstrings then vm.tempstrings i else none

/-- `PR_GetReadTempStringPtr`: where `datasize` bytes are read. -/
def prGetReadTempStringPtr (str : BitVec 32) (offset : BitVec 64) (datasize : ℕ) : Option Access :=
  (vm.tempSize str).map fun size =>
    if offset + BitVec.ofNat 64 datasize ≤ size.setWidth 64 then
      ⟨.temp size.toNat, offset.toInt, datasize⟩
    else ⟨.dummy, 0, datasize⟩

/-- The accesses of a resize: the old contents are copied, and the rest is cleared. -/
def resizeAccesses (size : BitVec 32) (newsize : ℕ) : List Access :=
  [⟨.temp size.toNat, 0, size.toNat⟩, ⟨.temp newsize, 0, size.toNat⟩,
    ⟨.temp newsize, size.toNat, (BitVec.ofNat 32 newsize - size).toNat⟩]

/-- `PR_GetWriteTempStringPtr`: the accesses of a resize, and where `datasize` bytes are
written. -/
def prGetWriteTempStringPtr (str : BitVec 32) (offset : BitVec 64) (datasize : ℕ) :
    Option (List Access) := do
  let size ← vm.tempSize str
  if size.setWidth 64 ≤ offset + BitVec.ofNat 64 datasize then
    let newsize := ((offset + BitVec.ofNat 64 datasize).setWidth 32).toNat
    if 2 ^ 20 < newsize then none
    else
      let newsize := (newsize + 3) / 4 * 4
      some (resizeAccesses size newsize ++ [⟨.temp newsize, offset.toInt, datasize⟩])
  else some [⟨.temp size.toNat, offset.toInt, datasize⟩]

end Vm

/-! ## Statements -/

/-- The opcodes that access memory through more than their operands. -/
inductive MemOp
  | storepIF | storepFI | storepI | storepF | storepEnt | storepFld | storepS | storepFnc
  | storepI64 | storepV | storepC | storepI8 | storepI16
  | storefF | storefI | storefS | storefI64 | storefV
  | address
  | loadP | loadI | loadF | loadFld | loadEnt | loadS | loadFnc | loadI64 | loadV
  | loadpItof | loadpFtoi
  | globaladdress | addPiw | addSf | subS
  | loadaI | loadaF | loadaFld | loadaEnt | loadaS | loadaFnc | loadaI64 | loadaV
  | loadpC | loadpU8 | loadpI8 | loadpU16 | loadpI16
  | loadpI | loadpF | loadpFld | loadpEnt | loadpS | loadpFnc | loadpI64 | loadpV
  | fetchGblF | fetchGblS | fetchGblE | fetchGblFnc | fetchGblV
  | mulstorepF | mulstorepVF | divstorepF | addstorepF | addstorepV | substorepF | substorepV
  | bitsetstorepF | bitclrstorepF
  | gloadI | gloadF | gloadFld | gloadEnt | gloadS | gloadFnc | gloadV
  | gstorepI | gstorepF | gstorepEnt | gstorepFld | gstorepS | gstorepFnc | gstorepV
  deriving DecidableEq

/-- Opcodes with the same code, by the sizes that differ. -/
inductive MemFamily
  /-- The index counts `scale` bytes, `size` bytes are written, and `value` bytes of the first operand
  are read. -/
  | storep (scale size value : ℕ)
  | storef (size : ℕ)
  | addressOf
  /-- `words` are read, and `invalid` bytes are cleared where there is no such entity. -/
  | load (words invalid : ℕ)
  | loadpConv
  | pointerArith (both : Bool)
  | loada (words : ℕ)
  | loadpFloat
  /-- The index counts `scale` bytes, `size` bytes are read, and `dest` bytes are written. -/
  | loadp (scale size dest : ℕ)
  | fetchGbl (words : ℕ)
  /-- `size` bytes are read and written, with `value` bytes of the first operand, and `dest` bytes of
  the third are written. -/
  | modifyp (size value : ℕ) (dest : Option ℕ)
  | gload (words : ℕ)
  | gstorep (words : ℕ)

/-- The code of each opcode. -/
def MemOp.family : MemOp → MemFamily
  | .storepIF => .storep 4 4 4
  | .storepFI => .storep 4 4 4
  | .storepI | .storepF | .storepEnt | .storepFld | .storepS | .storepFnc => .storep 4 4 4
  | .storepI64 => .storep 4 8 8
  | .storepV => .storep 4 12 12
  | .storepC => .storep 1 1 4
  | .storepI8 => .storep 1 1 4
  | .storepI16 => .storep 2 2 4
  | .storefF | .storefI | .storefS => .storef 4
  | .storefI64 => .storef 8
  | .storefV => .storef 12
  | .address => .addressOf
  | .loadP | .loadI | .loadF | .loadFld | .loadEnt | .loadS | .loadFnc => .load 1 4
  | .loadI64 => .load 2 12
  | .loadV => .load 3 12
  | .loadpItof => .loadpConv
  | .loadpFtoi => .loadpConv
  | .globaladdress => .pointerArith false
  | .addPiw => .pointerArith true
  | .addSf => .pointerArith true
  | .subS => .pointerArith true
  | .loadaI | .loadaF | .loadaFld | .loadaEnt | .loadaS | .loadaFnc => .loada 1
  | .loadaI64 => .loada 2
  | .loadaV => .loada 3
  | .loadpC => .loadpFloat
  | .loadpU8 => .loadp 1 1 4
  | .loadpI8 => .loadp 1 1 4
  | .loadpU16 => .loadp 2 2 4
  | .loadpI16 => .loadp 2 2 4
  | .loadpI | .loadpF | .loadpFld | .loadpEnt | .loadpS | .loadpFnc => .loadp 4 4 4
  | .loadpI64 => .loadp 4 8 8
  | .loadpV => .loadp 4 12 12
  | .fetchGblF | .fetchGblS | .fetchGblE | .fetchGblFnc => .fetchGbl 1
  | .fetchGblV => .fetchGbl 3
  | .mulstorepF => .modifyp 4 4 (some 4)
  | .mulstorepVF => .modifyp 12 4 (some 12)
  | .divstorepF => .modifyp 4 4 (some 4)
  | .addstorepF => .modifyp 4 4 (some 4)
  | .addstorepV => .modifyp 12 12 (some 12)
  | .substorepF => .modifyp 4 4 (some 4)
  | .substorepV => .modifyp 12 12 (some 12)
  | .bitsetstorepF => .modifyp 4 4 none
  | .bitclrstorepF => .modifyp 4 4 none
  | .gloadI | .gloadF | .gloadFld | .gloadEnt | .gloadS | .gloadFnc => .gload 1
  | .gloadV => .gload 3
  | .gstorepI | .gstorepF | .gstorepEnt | .gstorepFld | .gstorepS | .gstorepFnc => .gstorep 1
  | .gstorepV => .gstorep 3

/-- Opcodes, as far as `PR_CleanUpStatements` tells them apart. -/
inductive Opcode
  | mem (op : MemOp)
  | goto | ifI | ifnotI | ifF | ifnotF | ifS | ifnotS | boundcheck | case | caserange
  | call (argc : ℕ) | callH (argc : ℕ)
  /-- `OP_RAND0` to `OP_RANDV2`. -/
  | rand (kind : ℕ)
  /-- `~0`. -/
  | invalid
  | other (code : ℕ)
  deriving DecidableEq

/-- `dstatement_t`. -/
structure QcStatement where
  op : Opcode
  a : ℕ
  b : ℕ
  c : ℕ

/-- `OFS_RETURN`. -/
def ofsReturn : ℕ := 1

/-- Opcodes whose `b` is no global. -/
def Opcode.JumpsByB (op : Opcode) : Prop :=
  op ∈ [.ifnotI, .ifI, .ifnotF, .ifF, .ifnotS, .ifS, .boundcheck, .case]

instance (op : Opcode) : Decidable op.JumpsByB := inferInstanceAs (Decidable (_ ∈ _))

/-- `PR_CleanUpStatements16` and `PR_CleanUpStatements32`, for one statement. -/
def prCleanUpStatement (numglob : ℕ) (hexencalling : Bool) (st : QcStatement) : QcStatement :=
  let st := match hexencalling, st.op with
    | true, .call argc => { st with op := .callH argc }
    | true, .rand _ => if st.c = 0 then { st with c := ofsReturn } else st
    | _, _ => st
  let st := if numglob ≤ st.a ∧ st.op ≠ .goto then { st with op := .invalid } else st
  let st := if numglob ≤ st.b ∧ ¬st.op.JumpsByB then { st with op := .invalid } else st
  if numglob ≤ st.c ∧ st.op ≠ .boundcheck ∧ st.op ≠ .caserange then { st with op := .invalid }
  else st

/-- The statements of a machine whose progs were loaded. -/
def prCleanUpStatements (vm : Vm) (hexencalling : Bool) (sts : List QcStatement) :
    List QcStatement :=
  sts.map (prCleanUpStatement (vm.numglobals + 3) hexencalling)

/-! ## Opcodes -/

/-- The width of the operands of a statement. -/
inductive IntSize
  | int16 | int32

namespace Vm

variable (vm : Vm) (st : QcStatement)

/-- `OP_STOREP_*`. -/
def storep (scale size value : ℕ) : Outcome :=
  let p := vm.globalInt st.b
  let offset := (vm.globalInt st.c).signExtend 64 * BitVec.ofNat 64 scale
  let i := p + offset.setWidth 32
  let operands := [vm.glob st.b 4, vm.glob st.c 4]
  if vm.writeFail i size then
    match vm.prGetWriteTempStringPtr p offset size with
    | some accesses => .ran (operands ++ accesses ++ [vm.glob st.a value])
    | none => if i = -1 then .ran operands else .fault
  else .ran (operands ++ [⟨.hunk, i.toNat, size⟩, vm.glob st.a value])

/-- `OP_LOADP_*` at the pointer `i`, which is `offset` behind the first operand. -/
def loadpAt (i : BitVec 32) (offset : BitVec 64) (size dest : ℕ) : Outcome :=
  let operands := [vm.glob st.a 4, vm.glob st.b 4]
  if vm.readFail i size then
    match vm.prGetReadTempStringPtr (vm.globalInt st.a) offset size with
    | some access => .ran (operands ++ [access, vm.glob st.c dest])
    | none => if i = -1 then .ran (operands ++ [vm.glob st.c dest]) else .fault
  else .ran (operands ++ [⟨.hunk, i.toNat, size⟩, vm.glob st.c dest])

/-- `OP_LOADP_*` with an int for an index. -/
def loadp (scale size dest : ℕ) : Outcome :=
  let offset := vm.globalInt st.b * BitVec.ofNat 32 scale
  vm.loadpAt st (vm.globalInt st.a + offset) (offset.signExtend 64) size dest

/-- `OP_LOADP_C`: the index is a float. -/
def loadpFloat : Outcome :=
  let f := vm.globalInt st.b
  vm.loadpAt st (vm.globalInt st.a + vm.toInt f) (vm.toSize f) 1 4

/-- `OP_LOADP_ITOF` and `OP_LOADP_FTOI`: the test is that of a `char`. -/
def loadpConv : Outcome :=
  let i := vm.globalInt st.a
  if vm.readFail i 1 then .fault
  else .ran [vm.glob st.a 4, ⟨.hunk, i.toNat, 4⟩, vm.glob st.c 4]

/-- `OP_*STOREP_*`. -/
def modifyp (size value : ℕ) (dest : Option ℕ) : Outcome :=
  let i := vm.globalInt st.b
  if vm.writeFail i size then .fault
  else .ran ([vm.glob st.b 4, ⟨.hunk, i.toNat, size⟩, vm.glob st.a value] ++
    (dest.map (vm.glob st.c)).toList)

/-- `OP_STOREF_*`. -/
def storef (size : ℕ) : Outcome :=
  let e := (vm.globalInt st.a).toNat
  if vm.numEdicts ≤ e then .ran [vm.glob st.a 4]
  else match vm.edicttable e with
    | none => .ran [vm.glob st.a 4, vm.glob st.b 4]
    | some ed =>
      if ed.readonly then .ran [vm.glob st.a 4, vm.glob st.b 4]
      else
        let i := vm.globalInt st.b + vm.fieldadjust
        if ed.fieldsize ≤ (i * 4).toNat then .ran [vm.glob st.a 4, vm.glob st.b 4]
        else .ran [vm.glob st.a 4, vm.glob st.b 4, ed.field e i.toInt size, vm.glob st.c size]

/-- `OP_ADDRESS`: a pointer to a field, or `~0`. The field is not looked at. -/
def addressOf : Outcome :=
  let e := (vm.globalInt st.a).toNat
  if vm.numEdicts ≤ e then .ran [vm.glob st.a 4]
  else .ran [vm.glob st.a 4, vm.glob st.b 4, vm.glob st.c 4]

/-- `OP_LOAD_*`. -/
def load (words invalid : ℕ) : Outcome :=
  let e := (vm.globalInt st.a).toNat
  if vm.numEdicts ≤ e then .ran [vm.glob st.a 4, vm.glob st.c invalid]
  else match vm.edicttable e with
    | none => .ran [vm.glob st.a 4, ⟨.null, 0, 4⟩]
    | some ed =>
      let i := vm.globalInt st.b + vm.fieldadjust
      if ed.fieldsize < ((i + BitVec.ofNat 32 words) * 4).toNat then
        .ran [vm.glob st.a 4, vm.glob st.b 4, vm.glob st.c 4]
      else .ran [vm.glob st.a 4, vm.glob st.b 4, ed.field e i.toInt (4 * words),
        vm.glob st.c (4 * words)]

/-- `OP_LOADA_*`. -/
def loada (words : ℕ) : Outcome :=
  let i := BitVec.ofNat 32 st.a + vm.globalInt st.b
  if BitVec.ofNat 64 vm.numglobals - BitVec.ofNat 64 (words - 1) ≤ i.signExtend 64 then .fault
  else .ran [vm.glob st.b 4, vm.glob i.toInt (4 * words), vm.glob st.c (4 * words)]

/-- The test of `OP_GLOAD_*` and `OP_GSTOREP_*`. -/
def badIndex (i : BitVec 32) (words : ℕ) : Prop :=
  i.toInt < 0 ∨ BitVec.ofNat 32 vm.numglobals - BitVec.ofNat 32 (words - 1) ≤ i

instance (i : BitVec 32) (words : ℕ) : Decidable (vm.badIndex i words) :=
  inferInstanceAs (Decidable (_ ∨ _))

/-- `OP_GLOAD_*`. -/
def gload (words : ℕ) : Outcome :=
  let i := vm.globalInt st.a
  if vm.badIndex i words then .fault
  else .ran [vm.glob st.a 4, vm.glob i.toInt (4 * words), vm.glob st.c (4 * words)]

/-- `OP_GSTOREP_*`. -/
def gstorep (words : ℕ) : Outcome :=
  let i := vm.globalInt st.b
  if vm.badIndex i words then .fault
  else .ran [vm.glob st.b 4, vm.glob i.toInt (4 * words), vm.glob st.a (4 * words)]

/-- An index `a + i` into the globals, in the arithmetic of the operands. -/
def operandIndex : IntSize → ℕ → BitVec 32 → ℤ
  | .int16, a, i => (BitVec.ofNat 32 a + i).toInt
  | .int32, a, i => (BitVec.ofNat 32 a + i).toNat

/-- `OP_FETCH_GBL_*`: the global before the array holds the largest index. -/
def fetchGbl (width : IntSize) (words : ℕ) : Outcome :=
  let i := vm.toInt (vm.globalInt st.b)
  let last := operandIndex width st.a (-1)
  if vm.globalInt last < i then .fault
  else .ran [vm.glob st.b 4, vm.glob last 4,
    vm.glob (operandIndex width st.a (i * BitVec.ofNat 32 words)) (4 * words),
    vm.glob st.c (4 * words)]

/-- Pointer arithmetic reads one or two operands and writes the third. -/
def pointerArith (both : Bool) : Outcome :=
  .ran ((if both then [vm.glob st.a 4] else []) ++ [vm.glob st.b 4, vm.glob st.c 4])

/-- One opcode. -/
def exec (width : IntSize) (op : MemOp) : Outcome :=
  match op.family with
  | .storep scale size value => vm.storep st scale size value
  | .storef size => vm.storef st size
  | .addressOf => vm.addressOf st
  | .load words invalid => vm.load st words invalid
  | .loadpConv => vm.loadpConv st
  | .pointerArith both => vm.pointerArith st both
  | .loada words => vm.loada st words
  | .loadpFloat => vm.loadpFloat st
  | .loadp scale size dest => vm.loadp st scale size dest
  | .fetchGbl words => vm.fetchGbl st width words
  | .modifyp size value dest => vm.modifyp st size value dest
  | .gload words => vm.gload st words
  | .gstorep words => vm.gstorep st words

end Vm

end FteQuake
