import FteQuake.Common.Sizebuf
import FteQuake.Lib.Chain
import FteQuake.Lib.Words

/-!
# The heap of the QuakeC virtual machine

`PR_memalloc`, `PR_memfree` and `PR_memrealloc` of `initlib.c`, with `PRAddressableExtend` behind
them. Blocks lie in the addressable memory of the machine. A free block starts with the offsets of
its neighbours on the free list, which is ordered, and its size; a used block starts with a marker
and its size. Offset 0 ends the list.

Offsets and sizes are natural numbers, cut to 32 bits where the source keeps them in an
`unsigned int`; a pointer of the engine is the offset it has from the string table, and 0 is `NULL`.
`none` is `Sys_Error`, a write outside the hunk, or a list that does not end.
-/

namespace FteQuake

/-- `MARKER_USED`. -/
def markerUsed : ℕ := 0xC2A4F5A6

/-- A value kept in an `unsigned int`. -/
def u32 (x : ℕ) : ℕ := x % 2 ^ 32

/-- The addressable memory of a machine and its free list. Where the hunk may be moved,
`relocated` is what the memory of a larger one holds. -/
structure QcHeap where
  mem : Mem QByte
  addressableused : ℕ
  addressablesize : ℕ
  mfreelist : ℕ
  relocated : Option (Mem QByte)

namespace QcHeap

variable (h : QcHeap)

/-! ## Headers -/

/-- The fields of `qcmemfreeblock_t`. -/
def next (b : ℕ) : ℕ := h.mem.word b

def prev (b : ℕ) : ℕ := h.mem.word (b + 4)

def size (b : ℕ) : ℕ := h.mem.word (b + 8)

def setNext (b x : ℕ) : QcHeap := { h with mem := h.mem.setWord b x }

def setPrev (b x : ℕ) : QcHeap := { h with mem := h.mem.setWord (b + 4) x }

def setSize (b x : ℕ) : QcHeap := { h with mem := h.mem.setWord (b + 8) x }

/-- The fields of `qcmemusedblock_t`. -/
def marker (b : ℕ) : ℕ := h.mem.word b

def usedSize (b : ℕ) : ℕ := h.mem.word (b + 4)

def setMarker (b x : ℕ) : QcHeap := { h with mem := h.mem.setWord b x }

def setUsedSize (b x : ℕ) : QcHeap := { h with mem := h.mem.setWord (b + 4) x }

def setFreelist (b : ℕ) : QcHeap := { h with mfreelist := b }

/-- The successor of a block, or the head of the list. -/
def linkNext (b x : ℕ) : QcHeap := if b ≠ 0 then h.setNext b x else h.setFreelist x

/-- The predecessor of a block, if there is one. -/
def linkPrev (b x : ℕ) : QcHeap := if b ≠ 0 then h.setPrev b x else h

/-- `memset` to 0. -/
def clear (p n : ℕ) : Option QcHeap :=
  if p + n ≤ h.addressablesize then some { h with mem := h.mem.fill p n 0 } else none

/-! ## The free list -/

/-- `PF_fmem_unlink`. -/
def pfFmemUnlink (p : ℕ) : QcHeap :=
  let h := h.linkNext (h.prev p) (h.next p)
  h.linkPrev (h.next p) (h.prev p)

/-- The tests of one block, behind `l`. -/
def Suspect (b l : ℕ) : Prop :=
  h.prev b ≠ l ∨ h.next b ≠ 0 ∧ h.next b < u32 (b + h.size b) ∨ h.addressableused ≤ h.next b ∨
    h.addressableused ≤ u32 (b + h.size b) ∨ b ≤ h.prev b

instance (b l : ℕ) : Decidable (h.Suspect b l) :=
  inferInstanceAs (Decidable (_ ∨ _ ∧ _ ∨ _ ∨ _ ∨ _))

def prMemvalidateLoop : ℕ → ℕ → ℕ → Option Bool
  | 0, _, _ => none
  | fuel + 1, b, l =>
    if b = 0 then some true
    else if h.addressableused ≤ b ∨ h.Suspect b l then some false
    else prMemvalidateLoop fuel (h.next b) b

/-- `PR_memvalidate`: it complains of a list that is not in order, and changes nothing. -/
def prMemvalidate : Option Bool := h.prMemvalidateLoop (h.addressableused + 1) h.mfreelist 0

/-! ## More memory -/

/-- A larger hunk for `total` bytes, if the hunk may be moved. What was in the old one is not
copied. -/
def prAddressableMove (total : ℕ) : QcHeap :=
  let newsize := (BitVec.ofNat 32 ((total + 2 ^ 20) / 2 ^ 20 * 2 ^ 20)).toInt
  match h.relocated with
  | none => h
  | some fresh =>
    if newsize ≤ 0 then h else { h with mem := fresh, addressablesize := newsize.toNat }

/-- What `addressableused` grows by: an `int`. -/
def extendAmount (srcsize : ℕ) : ℤ := (BitVec.ofNat 32 ((srcsize + 4) / 4 * 4)).toInt

/-- What `addressableused` becomes. -/
def extendTotal (srcsize : ℕ) : ℕ := (BitVec.ofInt 64 (h.addressableused + extendAmount srcsize)).toNat

/-- `PRAddressableExtend` without data and padding. -/
def prAddressableExtend (srcsize : ℕ) : Option (ℕ × QcHeap) :=
  let pad := (BitVec.ofInt 32 (extendAmount srcsize - srcsize + 1)).toNat
  let total := h.extendTotal srcsize
  let h := if h.addressablesize ≤ total then h.prAddressableMove total else h
  if h.addressablesize ≤ total then none
  else
    let ptr := (BitVec.ofInt 64 (total - extendAmount srcsize)).toNat
    (fun h : QcHeap => (ptr, h)) <$> { h with addressableused := total }.clear (ptr + srcsize) pad

/-! ## Allocation -/

/-- What a search of the free list finds. -/
inductive Fit
  | block (b : ℕ)
  | nothing
  | corrupt
  deriving DecidableEq

/-- The first block of the list from `b` on that is large enough. -/
def prMemallocFind (size : ℕ) : ℕ → ℕ → Option Fit
  | 0, _ => none
  | fuel + 1, b =>
    if b = 0 then some .nothing
    else if h.addressableused ≤ b + 12 then some .corrupt
    else if size ≤ h.size b then
      if h.next b ≠ 0 ∧ h.next b < u32 (b + h.size b) ∨ h.addressableused ≤ h.next b ∨
          h.addressableused ≤ u32 (b + h.size b) ∨ b ≤ h.prev b then some .corrupt
      else some (.block b)
    else prMemallocFind size fuel (h.next b)

/-- A header behind the first `size` bytes of the block `b`, in its place on the list. The variable
of the source that holds `b` is the predecessor when there is one. -/
def prMemallocSplit (b size : ℕ) : QcHeap :=
  let np := b + size
  let n := u32 np
  let h := h.setPrev np (h.prev b)
  let h := h.setNext np (h.next b)
  let h := h.setSize np (h.size b - size)
  let p := if h.prev np ≠ 0 then h.prev np else b
  let h := h.linkNext (h.prev np) n
  if h.next p ≠ 0 then h.setPrev (h.next np) n else h

/-- The block `b` is split, or taken as a whole. -/
def prMemallocTake (b size : ℕ) : QcHeap × ℕ :=
  if u32 (size + 63) < h.size b then (h.prMemallocSplit b size, size)
  else (h.pfFmemUnlink b, h.size b)

/-- The block `ub` is cleared and marked. -/
def prMemallocMark (ub size : ℕ) : Option (ℕ × QcHeap) := do
  let h ← h.clear ub size
  let h := (h.setMarker ub markerUsed).setUsedSize ub size
  let _ ← h.prMemvalidate
  return (ub + 8, h)

/-- The size of the block for a request. -/
def blockSize (size : ℕ) : ℕ := u32 ((size + 8 + 63) / 64 * 64)

/-- What `PR_memalloc` does with what it found. -/
def prMemallocFrom (size : ℕ) : Fit → Option (ℕ × QcHeap)
  | .corrupt => some (0, h)
  | .block b => (h.prMemallocTake b size).1.prMemallocMark b (h.prMemallocTake b size).2
  | .nothing => do
    let (ub, h) ← h.prAddressableExtend size
    h.prMemallocMark ub size

/-- `PR_memalloc`. -/
def prMemalloc (size : ℕ) : Option (ℕ × QcHeap) := do
  let _ ← h.prMemvalidate
  let fit ← h.prMemallocFind (blockSize size) (h.addressableused + 1) h.mfreelist
  h.prMemallocFrom (blockSize size) fit

/-! ## Freeing -/

/-- The neighbours that a block at `ptr` has on the list from `na` on, behind `pa`. -/
def prMemfreeFind (ptr : ℕ) : ℕ → ℕ → ℕ → Option (Option (ℕ × ℕ))
  | 0, _, _ => none
  | fuel + 1, pa, na =>
    if h.addressableused ≤ na then some none
    else if na = 0 ∨ ptr ≤ na then some (some (pa, na))
    else prMemfreeFind ptr fuel na (h.next na)

/-- The block goes onto the list between `pa` and `na`. -/
def prMemfreeInsert (ptr size pa na : ℕ) : QcHeap :=
  let h := ((h.setPrev ptr pa).setNext ptr na).setSize ptr size
  (h.linkPrev na ptr).linkNext pa ptr

/-- The block is extended by a successor that it touches. -/
def prMemfreeMergeNext (ptr size na : ℕ) : QcHeap :=
  if na ≠ 0 ∧ h.next ptr = u32 (ptr + size) then
    (h.setSize ptr (u32 (h.size ptr + h.size na))).pfFmemUnlink na
  else h

/-- A predecessor that touches the block is extended by it. What the block itself has grown by is
not counted. -/
def prMemfreeMergePrev (ptr size pa : ℕ) : QcHeap :=
  if pa ≠ 0 ∧ u32 (pa + h.size pa) = ptr then
    (h.setSize pa (u32 (h.size pa + size))).pfFmemUnlink ptr
  else h

/-- The block goes onto the list, and is merged with what it touches. -/
def prMemfreePut (ptr size pa na : ℕ) : QcHeap :=
  ((h.prMemfreeInsert ptr size pa na).prMemfreeMergeNext ptr size na).prMemfreeMergePrev ptr size pa

/-- The offset of a header before the pointer. -/
def headerOf (ptr : ℕ) : ℕ := u32 (ptr + 2 ^ 32 - 8)

/-- The header before the pointer is that of a used block. -/
def Marked (ptr : ℕ) : Prop :=
  h.marker (headerOf ptr) = markerUsed ∧ 8 < h.usedSize (headerOf ptr) ∧
    u32 (headerOf ptr + h.usedSize (headerOf ptr)) ≤ u32 h.addressableused

instance (ptr : ℕ) : Decidable (h.Marked ptr) := inferInstanceAs (Decidable (_ ∧ _ ∧ _))

/-- What `PR_memfree` does where the block belongs. -/
def prMemfreeAt (p size : ℕ) : Option (ℕ × ℕ) → Option QcHeap
  | none => some h
  | some (pa, na) =>
    if pa ≠ 0 ∧ p < u32 (pa + h.size pa) then some h
    else if na ≠ 0 ∧ na < u32 (p + size) then some h
    else do
      let _ ← (h.prMemfreePut p size pa na).prMemvalidate
      return h.prMemfreePut p size pa na

/-- `PR_memfree` of a marked block: the marker goes first. -/
def prMemfreeBlock (p : ℕ) : Option QcHeap := do
  let place ← (h.setMarker p 0).prMemfreeFind p (h.addressableused + 1) 0 h.mfreelist
  (h.setMarker p 0).prMemfreeAt p (h.usedSize p) place

/-- `PR_memfree`. -/
def prMemfree (ptr : ℕ) : Option QcHeap :=
  if ptr = 0 then some h
  else do
    let _ ← h.prMemvalidate
    if h.addressableused ≤ headerOf ptr ∨ ¬h.Marked ptr then return h
    h.prMemfreeBlock (headerOf ptr)

/-- The rest of `PR_memrealloc`: what fits of the `oldsize` bytes at `ptr` is copied to `newptr`, and
the old block is freed. -/
def prMemreallocTo (ptr oldsize newsize newptr : ℕ) : Option (ℕ × QcHeap) :=
  if newptr = 0 ∧ newsize ≠ 0 then none
  else do
    let n := min oldsize newsize
    let h : QcHeap := { h with mem := h.mem.blit newptr (h.mem.slice ptr n) }
    let h ← h.clear (newptr + n) (newsize - n)
    let h ← h.prMemfree ptr
    return (newptr, h)

/-- `PR_memrealloc`. -/
def prMemrealloc (ptr newsize : ℕ) : Option (ℕ × QcHeap) :=
  if ptr = 0 then h.prMemalloc newsize
  else do
    let _ ← h.prMemvalidate
    if h.addressableused ≤ headerOf ptr ∨ ¬h.Marked ptr then return (0, h)
    let (newptr, h') ← h.prMemalloc newsize
    h'.prMemreallocTo ptr (h.usedSize (headerOf ptr) - 8) newsize newptr

end QcHeap

end FteQuake
