import FteQuake.Qclib.HeapList

/-!
# Runs of the QuakeC heap

What any sequence of allocations and frees makes of the heap. `Layout` says how free blocks and
blocks in use lie, `QcHeap.Good` that the heap of the machine holds them so. A heap stays good
while no call splits the last of several free blocks, for there the source writes through a
variable that no longer holds the block it means, and while the hunk is not moved.
-/

namespace FteQuake

open List Nat

/-- A block in use, and what was asked for. -/
structure QcLive where
  addr : ℕ
  size : ℕ
  request : ℕ
  deriving DecidableEq

/-- Two runs of bytes have no byte in common. -/
def Apart (a n b m : ℕ) : Prop := a + n ≤ b ∨ b + m ≤ a

/-! ## Layouts -/

/-- Free blocks and blocks in use between `base` and `used`. Free blocks are in order and do not
touch. -/
structure Layout (base used : ℕ) (free : List QcBlock) (live : List QcLive) : Prop where
  ascending : free.Pairwise fun a b => a.addr + a.size < b.addr
  within : ∀ b ∈ free, base ≤ b.addr ∧ 12 ≤ b.size ∧ b.addr + b.size < used
  room : ∀ c ∈ live, c.request + 8 ≤ c.size ∧ 12 ≤ c.size
  inside : ∀ c ∈ live, base ≤ c.addr ∧ c.addr + c.size < used
  disjoint : live.Pairwise fun a b => Apart a.addr a.size b.addr b.size
  off : ∀ c ∈ live, ∀ b ∈ free, Apart c.addr c.size b.addr b.size
  base_pos : 0 < base

namespace Layout

variable {base used used' : ℕ} {free xs ys : List QcBlock} {live us vs : List QcLive}

theorem spaced (hl : Layout base used free live) : Spaced base used free :=
  ⟨hl.ascending.imp le_of_lt, fun b hb => (hl.within b hb).1, fun b hb => (hl.within b hb).2.1,
    fun b hb => (hl.within b hb).2.2⟩

/-- Fewer free blocks. -/
theorem sublist (hl : Layout base used free live) (hs : xs.Sublist free) :
    Layout base used xs live :=
  ⟨hl.ascending.sublist hs, fun b hb => hl.within b (hs.subset hb), hl.room, hl.inside, hl.disjoint,
    fun c hc b hb => hl.off c hc b (hs.subset hb), hl.base_pos⟩

/-- Fewer blocks in use. -/
theorem sublist_live (hl : Layout base used free live) (hs : us.Sublist live) :
    Layout base used free us :=
  ⟨hl.ascending, hl.within, fun c hc => hl.room c (hs.subset hc),
    fun c hc => hl.inside c (hs.subset hc), hl.disjoint.sublist hs,
    fun c hc => hl.off c (hs.subset hc), hl.base_pos⟩

/-- More memory. -/
theorem grow (hl : Layout base used free live) (hu : used ≤ used') :
    Layout base used' free live where
  ascending := hl.ascending
  within b hb := ⟨(hl.within b hb).1, (hl.within b hb).2.1, by have := hl.within b hb; omega⟩
  room := hl.room
  inside c hc := ⟨(hl.inside c hc).1, lt_of_lt_of_le (hl.inside c hc).2 hu⟩
  disjoint := hl.disjoint
  off := hl.off
  base_pos := hl.base_pos

/-- One more block in use. -/
theorem cons {c : QcLive} (hl : Layout base used free live) (hroom : c.request + 8 ≤ c.size ∧ 12 ≤ c.size)
    (hin : base ≤ c.addr ∧ c.addr + c.size < used) (hlive : ∀ d ∈ live, Apart c.addr c.size d.addr d.size)
    (hfree : ∀ b ∈ free, Apart c.addr c.size b.addr b.size) :
    Layout base used free (c :: live) where
  ascending := hl.ascending
  within := hl.within
  room := forall_mem_cons.2 ⟨hroom, hl.room⟩
  inside := forall_mem_cons.2 ⟨hin, hl.inside⟩
  disjoint := pairwise_cons.2 ⟨hlive, hl.disjoint⟩
  off := forall_mem_cons.2 ⟨hfree, hl.off⟩
  base_pos := hl.base_pos

variable {b : QcBlock} {request : ℕ}

/-- One more free block. -/
theorem put (hl : Layout base used (xs ++ ys) live) (hb : base ≤ b.addr ∧ 12 ≤ b.size ∧ b.addr + b.size < used)
    (hxs : ∀ a ∈ xs, a.addr + a.size < b.addr) (hys : ∀ a ∈ ys, b.addr + b.size < a.addr)
    (hlive : ∀ c ∈ live, Apart c.addr c.size b.addr b.size) :
    Layout base used (xs ++ b :: ys) live where
  ascending := by
    obtain ⟨hx, hy, hxy⟩ := pairwise_append.1 hl.ascending
    refine pairwise_append.2 ⟨hx, pairwise_cons.2 ⟨hys, hy⟩, fun a ha c hc => ?_⟩
    rcases mem_cons.1 hc with rfl | hc
    · exact hxs a ha
    · exact hxy a ha c hc
  within c hc := by
    rw [mem_append, mem_cons] at hc
    rcases hc with hc | rfl | hc
    · exact hl.within c (mem_append_left _ hc)
    · exact hb
    · exact hl.within c (mem_append_right _ hc)
  room := hl.room
  inside := hl.inside
  disjoint := hl.disjoint
  off d hd c hc := by
    rw [mem_append, mem_cons] at hc
    rcases hc with hc | rfl | hc
    · exact hl.off d hd c (mem_append_left _ hc)
    · exact hlive d hd
    · exact hl.off d hd c (mem_append_right _ hc)
  base_pos := hl.base_pos

theorem middle {α : Type*} {l l' : List α} {b : α} : (l ++ l').Sublist (l ++ b :: l') :=
  (List.Sublist.refl l).append (sublist_cons_self b l')

/-- What lies around a free block. -/
theorem around (hl : Layout base used (xs ++ b :: ys) live) :
    (∀ a ∈ xs, a.addr + a.size < b.addr) ∧ ∀ a ∈ ys, b.addr + b.size < a.addr := by
  obtain ⟨-, hy, hxy⟩ := pairwise_append.1 hl.ascending
  exact ⟨fun a ha => hxy a ha b (.head _), (pairwise_cons.1 hy).1⟩

/-- **A free block is split**: its first bytes are used. -/
theorem split {size : ℕ} (hl : Layout base used (xs ++ b :: ys) live)
    (hroom : request + 8 ≤ size ∧ 12 ≤ size) (hsize : size + 12 ≤ b.size) :
    Layout base used (xs ++ ⟨b.addr + size, b.size - size⟩ :: ys)
      (⟨b.addr, size, request⟩ :: live) := by
  obtain ⟨hxs, hys⟩ := hl.around
  have hb := hl.within b (by simp)
  have hput : Layout base used (xs ++ ⟨b.addr + size, b.size - size⟩ :: ys) live := by
    refine (hl.sublist middle).put ⟨?_, ?_, ?_⟩ (fun a ha => ?_) (fun a ha => ?_) fun c hc => ?_
    · exact le_add_right_of_le hb.1
    · exact Nat.le_sub_of_add_le' hsize
    · change b.addr + size + (b.size - size) < used
      omega
    · exact Nat.lt_add_right _ (hxs a ha)
    · have := hys a ha
      change b.addr + size + (b.size - size) < a.addr
      omega
    · have hc := hl.off c hc b (by simp)
      unfold Apart at hc ⊢
      change c.addr + c.size ≤ b.addr + size ∨ b.addr + size + (b.size - size) ≤ c.addr
      omega
  refine hput.cons hroom ⟨hb.1, ?_⟩ (fun c hc => ?_) fun a ha => ?_
  · change b.addr + size < used
    omega
  · have hc := hl.off c hc b (by simp)
    unfold Apart at hc ⊢
    change b.addr + size ≤ c.addr ∨ c.addr + c.size ≤ b.addr
    omega
  · unfold Apart
    change b.addr + size ≤ a.addr ∨ a.addr + a.size ≤ b.addr
    rw [mem_append, mem_cons] at ha
    rcases ha with ha | rfl | ha
    · have := hxs a ha
      omega
    · exact .inl le_rfl
    · have := hys a ha
      omega

/-- A free block is used as a whole. -/
theorem take (hl : Layout base used (xs ++ b :: ys) live) (hroom : request + 8 ≤ b.size) :
    Layout base used (xs ++ ys) (⟨b.addr, b.size, request⟩ :: live) := by
  obtain ⟨hxs, hys⟩ := hl.around
  have hb := hl.within b (by simp)
  refine (hl.sublist middle).cons ⟨hroom, hb.2.1⟩ ⟨hb.1, hb.2.2⟩ (fun c hc => ?_) fun a ha => ?_
  · exact (hl.off c hc b (by simp)).symm
  · rcases mem_append.1 ha with ha | ha
    · exact .inr (le_of_lt (hxs a ha))
    · exact .inl (le_of_lt (hys a ha))

/-- A block behind all others. -/
theorem fresh {size : ℕ} (hl : Layout base used free live) (hbase : base ≤ used)
    (hroom : request + 8 ≤ size ∧ 12 ≤ size) (hu : used + size < used') :
    Layout base used' free (⟨used, size, request⟩ :: live) := by
  refine (hl.grow (by omega)).cons hroom ⟨hbase, hu⟩ (fun c hc => ?_) fun b hb => ?_
  · exact .inr (le_of_lt (hl.inside c hc).2)
  · exact .inr (le_of_lt (hl.within b hb).2.2)

/-- What lies around a block in use. -/
theorem around_live {c : QcLive} (hl : Layout base used free (us ++ c :: vs)) :
    (∀ d ∈ us ++ vs, Apart d.addr d.size c.addr c.size) ∧
      ∀ b ∈ free, Apart c.addr c.size b.addr b.size := by
  obtain ⟨-, hv, huv⟩ := pairwise_append.1 hl.disjoint
  refine ⟨fun d hd => ?_, hl.off c (by simp)⟩
  rcases mem_append.1 hd with hd | hd
  · exact huv d hd c (.head _)
  · exact ((pairwise_cons.1 hv).1 d hd).symm

end Layout

/-! ## Good heaps -/

namespace QcHeap

/-- **A heap in order**, above what lies below `base`. -/
structure Good (base : ℕ) (h : QcHeap) (free : List QcBlock) (live : List QcLive) : Prop where
  list : FreeList h free
  layout : Layout base h.addressableused free live
  marked : ∀ c ∈ live, h.marker c.addr = markerUsed ∧ h.usedSize c.addr = c.size
  base_le : base ≤ h.addressableused
  used_lt : h.addressableused < h.addressablesize
  size_le : h.addressablesize ≤ 2 ^ 31

variable {base : ℕ} {h h' : QcHeap} {free free' xs ys : List QcBlock} {live : List QcLive}

theorem Good.limit_le (hg : Good base h free live) : h.addressableused ≤ 2 ^ 32 := by
  have := hg.used_lt
  have := hg.size_le
  omega

theorem Good.validate (hg : Good base h free live) : h.prMemvalidate = some true :=
  hg.list.validate hg.layout.spaced hg.layout.base_pos hg.limit_le

/-- The marker and the size of a block whose bytes did not change. -/
theorem marker_congr (h h' : QcHeap) (a : ℕ) (hmem : ∀ x, a ≤ x → x < a + 8 → h'.mem x = h.mem x) :
    h'.marker a = h.marker a ∧ h'.usedSize a = h.usedSize a := by
  constructor
  · exact Mem.word_congr fun x _ _ => hmem x (by omega) (by omega)
  · exact Mem.word_congr fun x _ _ => hmem x (by omega) (by omega)

variable {b : QcBlock} {c : QcLive} {n p size : ℕ}

/-- What stays marked. -/
theorem marked_of_same (hm : h.marker c.addr = markerUsed ∧ h.usedSize c.addr = c.size)
    (h12 : 12 ≤ c.size) (hsame : ∀ x, c.addr ≤ x → x < c.addr + c.size → h'.mem x = h.mem x) :
    h'.marker c.addr = markerUsed ∧ h'.usedSize c.addr = c.size := by
  obtain ⟨hmark, hsize⟩ := marker_congr h h' c.addr fun x hx hx' => hsame x hx (by omega)
  rwa [hmark, hsize]

/-- Bytes of blocks in use are not those of headers of free blocks. -/
theorem not_mem_headers {used : ℕ} (hl : Layout base used free live) (hc : c ∈ live)
    {x : ℕ} (hx : c.addr ≤ x) (hx' : x < c.addr + c.size) : x ∉ headers free := by
  rintro ⟨b, hb, hbx, hbx'⟩
  have hoff := hl.off c hc b hb
  have hsz := (hl.within b hb).2.1
  unfold Apart at hoff
  omega

/-- `memset` within the hunk. -/
theorem clear_eq (hfit : p + n ≤ h.addressablesize) :
    h.clear p n = some { h with mem := h.mem.fill p n 0 } := if_pos hfit

/-- The block is cleared and marked, and all else is as it was. -/
theorem prMemallocMark_spec (hlist : FreeList h free) (hlay : Layout base h.addressableused free (c :: live))
    (hmark : ∀ d ∈ live, h.marker d.addr = markerUsed ∧ h.usedSize d.addr = d.size) (hbase : base ≤ h.addressableused)
    (hused : h.addressableused < h.addressablesize) (hsize : h.addressablesize ≤ 2 ^ 31) :
    ∃ h', h.prMemallocMark c.addr c.size = some (c.addr + 8, h') ∧ Good base h' free (c :: live) ∧
      h'.addressableused = h.addressableused ∧
      ∀ x, x < c.addr ∨ c.addr + c.size ≤ x → h'.mem x = h.mem x := by
  have hin := hlay.inside c (by simp)
  have h12 := (hlay.room c (by simp)).2
  let h₁ : QcHeap := { h with mem := h.mem.fill c.addr c.size 0 }
  let h₂ : QcHeap := (h₁.setMarker c.addr markerUsed).setUsedSize c.addr c.size
  have hsame : ∀ x, x < c.addr ∨ c.addr + c.size ≤ x → h₂.mem x = h.mem x := by
    intro x hx
    change Mem.setWord (Mem.setWord (Mem.fill h.mem _ _ _) _ _) _ _ x = _
    rw [Mem.setWord_apply_of_out _ _ (by omega), Mem.setWord_apply_of_out _ _ (by omega),
      Mem.fill_apply_of_out _ _ hx]
  have hlist' : FreeList h₂ free := by
    refine hlist.of_headers (fun x hx => hsame x ?_) rfl
    by_contra hout
    exact not_mem_headers hlay (.head _) (by omega) (by omega) hx
  have hgood : Good base h₂ free (c :: live) := by
    refine ⟨hlist', hlay, forall_mem_cons.2 ⟨⟨?_, ?_⟩, fun d hd => ?_⟩, hbase, hused, hsize⟩
    · change Mem.word (Mem.setWord (Mem.setWord _ _ _) _ _) _ = _
      rw [Mem.word_setWord_of_apart _ _ (by omega)]
      exact Mem.word_setWord_self _ _ (by decide)
    · exact Mem.word_setWord_self _ _ (by omega)
    · have hd' := hlay.room d (.tail c hd)
      have hcd := (pairwise_cons.1 hlay.disjoint).1 d hd
      unfold Apart at hcd
      exact marked_of_same (hmark d hd) hd'.2 fun x hx hx' => hsame x (by omega)
  refine ⟨h₂, ?_, hgood, rfl, hsame⟩
  have hclear : h.clear c.addr c.size = some h₁ := clear_eq (by omega)
  have hval : h₂.prMemvalidate = some true := hgood.validate
  rw [prMemallocMark, hclear]
  change (do let _ ← h₂.prMemvalidate; some (c.addr + 8, h₂)) = _
  rw [hval]
  rfl

/-! ## Allocation -/

/-- What the hunk grows by, and becomes. -/
theorem extendTotal_eq (h4 : size % 4 = 0) (hsize : size ≤ 2 ^ 31 + 64)
    (hu : h.addressableused ≤ 2 ^ 31) (hlt : h.addressableused + size + 4 < 2 ^ 32) :
    (extendAmount size = size + 4 ∧ h.extendTotal size = h.addressableused + size + 4) ∨
      2 ^ 31 ≤ size + 4 ∧ 2 ^ 32 ≤ h.extendTotal size := by
  have hround : (size + 4) / 4 * 4 = size + 4 := by omega
  by_cases hbig : size + 4 < 2 ^ 31
  · have ha : extendAmount size = size + 4 := by
      rw [extendAmount, hround, BitVec.toInt_eq_toNat_of_lt (by rw [BitVec.toNat_ofNat]; omega),
        BitVec.toNat_ofNat, mod_eq_of_lt (by omega)]
      rfl
    refine .inl ⟨ha, ?_⟩
    rw [extendTotal, ha, BitVec.toNat_ofInt]
    omega
  · have ha : extendAmount size = size + 4 - 2 ^ 32 := by
      rw [extendAmount, hround, BitVec.toInt_eq_toNat_cond, BitVec.toNat_ofNat, if_neg (by omega)]
      omega
    refine .inr ⟨by omega, ?_⟩
    rw [extendTotal, ha, BitVec.toNat_ofInt]
    omega

/-- The heap with `size` more bytes, and five that are cleared behind them. -/
def extended (h : QcHeap) (size : ℕ) : QcHeap :=
  { h with
    addressableused := h.addressableused + size + 4
    mem := h.mem.fill (h.addressableused + size) 5 0 }

theorem extended_mem {x : ℕ} (hx : x < h.addressableused) :
    (h.extended size).mem x = h.mem x :=
  Mem.fill_apply_of_out _ _ (by omega)

/-- More memory behind all that is used. -/
theorem prAddressableExtend_spec (h4 : size % 4 = 0) (hsize : size ≤ 2 ^ 31 + 64)
    (hu : h.addressableused < h.addressablesize) (hs : h.addressablesize ≤ 2 ^ 31)
    (hsafe : h.addressableused + size + 4 < h.addressablesize ∨
      h.relocated = none ∧ h.addressableused + size + 4 < 2 ^ 32)
    (hr : h.prAddressableExtend size = some (p, h')) :
    p = h.addressableused ∧ h.addressableused + size + 4 < h.addressablesize ∧
      h' = h.extended size := by
  have hmove : (if h.addressablesize ≤ h.extendTotal size then
      h.prAddressableMove (h.extendTotal size) else h) = h := by
    split_ifs with hle
    · rcases hsafe with hfit | ⟨hnone, -⟩
      · rcases extendTotal_eq (h := h) h4 hsize (by omega) (by omega) with ⟨-, ht⟩ | ⟨hbig, -⟩
        · omega
        · omega
      · rw [prAddressableMove, hnone]
    · rfl
  rw [prAddressableExtend, hmove] at hr
  split_ifs at hr with hle
  rcases extendTotal_eq (h := h) h4 hsize (by omega) (by omega) with ⟨ha, ht⟩ | ⟨hbig, ht⟩
  · have hptr : (BitVec.ofInt 64 ((h.addressableused + size + 4 : ℕ) - ((size : ℤ) + 4))).toNat =
        h.addressableused := by
      rw [BitVec.toNat_ofInt]
      omega
    have hpad : (BitVec.ofInt 32 ((size : ℤ) + 4 - size + 1)).toNat = 5 := by
      rw [BitVec.toNat_ofInt]
      omega
    rw [ht] at hle
    let h₁ : QcHeap := { h with addressableused := h.addressableused + size + 4 }
    have hclear : h₁.clear (h.addressableused + size) 5 =
        some { h₁ with mem := h.mem.fill (h.addressableused + size) 5 0 } := by
      refine clear_eq ?_
      change h.addressableused + size + 5 ≤ h.addressablesize
      omega
    rw [ha, ht, hptr, hpad] at hr
    change (fun k : QcHeap => (h.addressableused, k)) <$>
      h₁.clear (h.addressableused + size) 5 = some (p, h') at hr
    rw [hclear] at hr
    obtain ⟨rfl, rfl⟩ := Prod.mk.inj (Option.some.inj hr)
    exact ⟨rfl, by omega, rfl⟩
  · omega

/-- What a call changes: bytes of headers of free blocks, and those of one block. -/
def Frame (h h' : QcHeap) (free free' : List QcBlock) (a n : ℕ) : Prop :=
  ∀ x < h.addressableused, x ∉ headers free → x ∉ headers free' → (x < a ∨ a + n ≤ x) →
    h'.mem x = h.mem x

/-- **The condition on an allocation.** A block that is split is the first on the list, or not the
last; and a hunk that is full is not moved, nor does its size pass 32 bits. -/
def SafeAlloc (h : QcHeap) (n : ℕ) : Prop :=
  match h.prMemallocFind (blockSize n) (h.addressableused + 1) h.mfreelist with
  | some (.block b) => u32 (blockSize n + 63) < h.size b → h.prev b = 0 ∨ h.next b ≠ 0
  | some .nothing => h.addressableused + blockSize n + 4 < h.addressablesize ∨
      h.relocated = none ∧ h.addressableused + blockSize n + 4 < 2 ^ 32
  | _ => True

theorem used_link (h : QcHeap) (a b x y : ℕ) :
    ((h.linkNext a x).linkPrev b y).addressableused = h.addressableused := by
  unfold linkNext linkPrev
  split_ifs <;> rfl

theorem size_link (h : QcHeap) (a b x y : ℕ) :
    ((h.linkNext a x).linkPrev b y).addressablesize = h.addressablesize := by
  unfold linkNext linkPrev
  split_ifs <;> rfl

theorem blockSize_spec (hn : n < 2 ^ 31) :
    blockSize n % 4 = 0 ∧ n + 8 ≤ blockSize n ∧ 64 ≤ blockSize n ∧ blockSize n ≤ 2 ^ 31 + 64 := by
  unfold blockSize u32
  omega

/-- A block has been taken for a request: what the list and the layout are then. -/
structure Taken (base : ℕ) (h h' : QcHeap) (free free' : List QcBlock) (live : List QcLive)
    (c : QcLive) : Prop where
  list : FreeList h' free'
  layout : Layout base h.addressableused free' (c :: live)
  used : h'.addressableused = h.addressableused
  size : h'.addressablesize = h.addressablesize
  same : ∀ x, x ∉ headers free → x ∉ headers free' → h'.mem x = h.mem x
  kept : ∀ a ∈ addrs free', a ∈ addrs free ∨ a = c.addr + c.size

theorem Good.split {request : ℕ} (hg : Good base h (xs ++ b :: ys) live) (hroom : request + 8 ≤ size ∧ 12 ≤ size)
    (hsize : size + 12 ≤ b.size) (hsafe : h.prev b.addr = 0 ∨ h.next b.addr ≠ 0) :
    Taken base h (h.prMemallocSplit b.addr size) (xs ++ b :: ys)
      (xs ++ ⟨b.addr + size, b.size - size⟩ :: ys) live ⟨b.addr, size, request⟩ := by
  obtain ⟨hxs, hys, hprev, hnext⟩ := hg.list.at_block
  rw [hprev, hnext] at hsafe
  have hlay := hg.layout.split hroom hsize
  have hlist := FreeList.putBetween (c := ⟨b.addr + size, b.size - size⟩) hxs hys
    hg.list.head_left (fun a ha => hg.list.size a (Layout.middle.subset ha)) hlay.spaced
    hlay.base_pos hg.limit_le
  rw [prMemallocSplit_eq hg.list hg.layout.spaced hg.layout.base_pos hg.limit_le hroom.2 hsize hsafe]
  refine ⟨hlist, hlay, used_link .., size_link .., fun x _ hx =>
    mem_putBetween (c := ⟨b.addr + size, b.size - size⟩) hx, fun a ha => ?_⟩
  simp only [addrs_append, addrs_cons, mem_append, mem_cons] at ha ⊢
  tauto

theorem Good.take {request : ℕ} (hg : Good base h (xs ++ b :: ys) live) (hroom : request + 8 ≤ b.size) :
    Taken base h (h.pfFmemUnlink b.addr) (xs ++ b :: ys) (xs ++ ys) live
      ⟨b.addr, b.size, request⟩ := by
  have hlist := hg.list.unlink hg.layout.spaced hg.layout.base_pos hg.limit_le
  rw [pfFmemUnlink_eq hg.list hg.layout.spaced] at hlist ⊢
  refine ⟨hlist, hg.layout.take hroom, used_link .., size_link .., fun x hx _ => ?_, fun a ha => ?_⟩
  · have hsub {l : List QcBlock} (hl : ∀ c ∈ l, c ∈ xs ++ b :: ys) : x ∉ headers l := by
      rintro ⟨c, hc, hcx⟩
      exact hx ⟨c, hl c hc, hcx⟩
    exact mem_link (hsub fun c hc => by simp [hc]) (hsub fun c hc => by simp [hc])
  · simp only [addrs_append, addrs_cons, mem_append, mem_cons] at ha ⊢
    tauto

theorem prMemallocTake_of_lt {b : ℕ} (hu : u32 (size + 63) = size + 63) (hlt : size + 63 < h.size b) :
    h.prMemallocTake b size = (h.prMemallocSplit b size, size) := by
  rw [prMemallocTake, hu, if_pos hlt]

theorem prMemallocTake_of_le {b : ℕ} (hu : u32 (size + 63) = size + 63)
    (hle : h.size b ≤ size + 63) : h.prMemallocTake b size = (h.pfFmemUnlink b, h.size b) := by
  rw [prMemallocTake, hu, if_neg (not_lt.2 hle)]

theorem u32_size (hmax : size ≤ 2 ^ 31 + 64) : u32 (size + 63) = size + 63 :=
  mod_eq_of_lt (by omega)

/-- The block found is taken off the list, or what is left of it stays. -/
theorem prMemallocTake_spec (hg : Good base h (xs ++ b :: ys) live)
    (hroom : n + 8 ≤ size ∧ 12 ≤ size) (hu : u32 (size + 63) = size + 63) (hfit : size ≤ b.size)
    (hsafe : size + 63 < b.size → h.prev b.addr = 0 ∨ h.next b.addr ≠ 0) :
    ∃ c h' free', c.addr = b.addr ∧ c.request = n ∧ h.prMemallocTake b.addr size = (h', c.size) ∧
      Taken base h h' (xs ++ b :: ys) free' live c := by
  have hb := hg.list.size b (by simp)
  rcases lt_or_ge (size + 63) b.size with hlt | hle
  · exact ⟨⟨b.addr, size, n⟩, _, _, rfl, rfl, prMemallocTake_of_lt hu (hlt.trans_eq hb.symm),
      hg.split hroom (by omega) (hsafe hlt)⟩
  · refine ⟨⟨b.addr, b.size, n⟩, _, _, rfl, rfl, ?_, hg.take (hroom.1.trans hfit)⟩
    rw [prMemallocTake_of_le hu (hb.le.trans hle), hb]

theorem prMemalloc_of_find {r : Bool} {fit : Fit} (hval : h.prMemvalidate = some r)
    (hfind : h.prMemallocFind (blockSize n) (h.addressableused + 1) h.mfreelist = some fit) :
    h.prMemalloc n = h.prMemallocFrom (blockSize n) fit := by
  rw [prMemalloc, hval, hfind, Option.bind_eq_bind, Option.bind_some, Option.bind_eq_bind, Option.bind_some]

/-- What is marked stays so off the headers of free blocks. -/
theorem Good.marked_of_frame (hg : Good base h free live) (h' : QcHeap)
    (hsame : ∀ c ∈ live, ∀ x, c.addr ≤ x → x < c.addr + c.size → h'.mem x = h.mem x) :
    ∀ c ∈ live, h'.marker c.addr = markerUsed ∧ h'.usedSize c.addr = c.size := fun c hc =>
  marked_of_same (hg.marked c hc) (hg.layout.room c hc).2 (hsame c hc)

/-- **`PR_memalloc`** returns a new block. -/
theorem prMemalloc_spec (hg : Good base h free live) (hn : n < 2 ^ 31)
    (hsafe : h.SafeAlloc n) (hr : h.prMemalloc n = some (p, h')) :
    ∃ c free', p = c.addr + 8 ∧ c.request = n ∧ Good base h' free' (c :: live) ∧
      h.addressableused ≤ h'.addressableused ∧ Frame h h' free free' c.addr c.size ∧
      ∀ a ∈ addrs free', a ∈ addrs free ∨ a = c.addr + c.size := by
  obtain ⟨h4, hroom, h64, hmax⟩ := blockSize_spec hn
  have hu := hg.used_lt
  have hs := hg.size_le
  rcases hg.list.find hg.layout.spaced hg.layout.base_pos hg.limit_le (blockSize n) with
    hfind | ⟨xs, b, ys, rfl, hfit, hfind⟩
  · -- no block is large enough
    rw [SafeAlloc, hfind] at hsafe
    rw [prMemalloc_of_find hg.validate hfind, prMemallocFrom] at hr
    obtain ⟨⟨ub, h₁⟩, hext, hr⟩ := Option.bind_eq_some_iff.1 hr
    obtain ⟨rfl, hlt, rfl⟩ := prAddressableExtend_spec h4 hmax hu hs hsafe hext
    have hlay : Layout base (h.addressableused + blockSize n + 4) free (⟨h.addressableused, blockSize n, n⟩ :: live) :=
      hg.layout.fresh hg.base_le ⟨hroom, by omega⟩ (by omega)
    have hlist : FreeList (h.extended (blockSize n)) free := by
      refine hg.list.of_headers (fun x hx => extended_mem ?_) rfl
      obtain ⟨b, hb, hbx, hbx'⟩ := hx
      have := hg.layout.within b hb
      omega
    have hmarked := hg.marked_of_frame (h.extended (blockSize n))
      fun c hc x _ hx => extended_mem (by have := hg.layout.inside c hc; omega)
    have hbase : base ≤ (h.extended (blockSize n)).addressableused :=
      hg.base_le.trans (le_add_right_of_le (le_add_right _ _))
    obtain ⟨h₂, hmark, hgood, hused, hsame⟩ := prMemallocMark_spec hlist hlay hmarked hbase hlt hs
    have hr : (h.extended (blockSize n)).prMemallocMark h.addressableused (blockSize n) = some (p, h') := hr
    rw [hmark] at hr
    obtain ⟨rfl, rfl⟩ := Prod.mk.inj (Option.some.inj hr)
    refine ⟨_, free, rfl, rfl, hgood, ?_, fun x hx _ _ hxc => ?_, fun a ha => .inl ha⟩
    · rw [hused]
      exact le_add_right_of_le (le_add_right _ _)
    · rw [hsame x hxc]
      exact extended_mem hx
  · obtain ⟨c, h₁, free', hca, hcr, htake, ht⟩ := prMemallocTake_spec hg ⟨hroom, by omega⟩ (u32_size hmax) hfit (by
      rw [SafeAlloc, hfind] at hsafe
      rwa [← hg.list.size b (by simp), ← u32_size hmax])
    have hoff : ∀ d ∈ live, ∀ x, d.addr ≤ x → x < d.addr + d.size → h₁.mem x = h.mem x :=
      fun d hd x hx hx' => ht.same x (not_mem_headers hg.layout hd hx hx')
        (not_mem_headers ht.layout (.tail c hd) hx hx')
    obtain ⟨h₂, hmark, hgood, hused, hsame⟩ := prMemallocMark_spec ht.list
      (ht.used.symm ▸ ht.layout) (hg.marked_of_frame h₁ hoff) (ht.used.symm ▸ hg.base_le)
      (by rw [ht.used, ht.size]; exact hu) (ht.size.symm ▸ hs)
    rw [prMemalloc_of_find hg.validate hfind, prMemallocFrom, htake, ← hca, hmark] at hr
    obtain ⟨rfl, rfl⟩ := Prod.mk.inj (Option.some.inj hr)
    refine ⟨c, free', rfl, hcr, hgood, (hused.trans ht.used).ge, fun x _ hx hx' hxc => ?_, ht.kept⟩
    rw [hsame x hxc, ht.same x hx hx']

/-! ## Freeing -/

/-- **The successor** is merged into a block that ends where it starts. -/
theorem prMemfreeMergeNext_spec {c : QcBlock} {limit : ℕ} (hf : FreeList h (xs ++ c :: ys))
    (hsp : Spaced base limit (xs ++ c :: ys)) (hbase : 0 < base) (hlimit : limit ≤ 2 ^ 32) :
    ∃ c' ys', FreeList (h.prMemfreeMergeNext c.addr c.size ((addrs ys).headD 0)) (xs ++ c' :: ys') ∧
      (c' = c ∧ ys' = ys ∧ (∀ a ∈ ys, c.addr + c.size < a.addr) ∨
        ∃ n, ys = n :: ys' ∧ n.addr = c.addr + c.size ∧ c' = ⟨c.addr, c.size + n.size⟩) ∧
      ∀ x, x ∉ headers (xs ++ c :: ys) →
        (h.prMemfreeMergeNext c.addr c.size ((addrs ys).headD 0)).mem x = h.mem x := by
  have hc := hsp.high c (by simp)
  have hend : u32 (c.addr + c.size) = c.addr + c.size := mod_eq_of_lt (by omega)
  obtain ⟨-, -, -, hnext⟩ := hf.at_block
  unfold prMemfreeMergeNext
  rw [hnext, hend]
  split_ifs with hmerge
  · obtain ⟨n, ys, rfl⟩ : ∃ n zs, ys = n :: zs := by
      cases ys with
      | nil => exact absurd rfl hmerge.1
      | cons n ys => exact ⟨n, ys, rfl⟩
    have hn : n.addr = c.addr + c.size := hmerge.2
    have hnh := hsp.high n (by simp)
    have hsum : u32 (c.size + n.size) = c.size + n.size := mod_eq_of_lt (by omega)
    rw [hf.size c (by simp), addrs_cons, headD_cons, hf.size n (by simp), hsum]
    exact ⟨⟨c.addr, c.size + n.size⟩, ys, hf.merge hsp hbase hlimit (by omega),
      .inr ⟨n, rfl, hn, rfl⟩, fun x hx => mem_merge hf hsp hx⟩
  · refine ⟨c, ys, hf, .inl ⟨rfl, rfl, fun a ha => ?_⟩, fun x _ => rfl⟩
    cases ys with
    | nil => exact absurd ha not_mem_nil
    | cons n ys =>
      have hcn := (pairwise_cons.1 hsp.right.ascending).1 n (.head _)
      have hlow := hsp.low n (by simp)
      have hne : n.addr ≠ c.addr + c.size :=
        fun e => hmerge ⟨(by omega : n.addr ≠ 0), e⟩
      rcases mem_cons.1 ha with rfl | ha
      · omega
      · have hna := (pairwise_cons.1 hsp.right.tail.ascending).1 a ha
        have h12 := hsp.header n (by simp)
        omega

/-- **The predecessor** that ends where the block starts is extended by it. -/
theorem prMemfreeMergePrev_spec {c : QcBlock} {limit : ℕ} (hf : FreeList h (xs ++ c :: ys))
    (hsp : Spaced base limit (xs ++ c :: ys)) (hbase : 0 < base) (hlimit : limit ≤ 2 ^ 32) (hsize : size ≤ c.size) :
    ∃ free', FreeList (h.prMemfreeMergePrev c.addr size (Chain.last 0 (addrs xs))) free' ∧
      (free' = xs ++ c :: ys ∧ (∀ a ∈ xs, a.addr + a.size < c.addr) ∨
        ∃ us p, xs = us ++ [p] ∧ p.addr + p.size = c.addr ∧
          free' = us ++ ⟨p.addr, p.size + size⟩ :: ys) ∧
      ∀ x, x ∉ headers (xs ++ c :: ys) →
        (h.prMemfreeMergePrev c.addr size (Chain.last 0 (addrs xs))).mem x = h.mem x := by
  rcases eq_nil_or_concat xs with rfl | ⟨us, p, rfl⟩
  · unfold prMemfreeMergePrev
    rw [if_neg (by simp)]
    exact ⟨_, hf, .inl ⟨rfl, fun a ha => absurd ha not_mem_nil⟩, fun x _ => rfl⟩
  · have hp := hsp.high p (by simp)
    have hc := hsp.high c (by simp)
    have hpc := hsp.le (a := p) (by simp) (.head _)
    have hlow := hsp.low p (by simp)
    have hend : u32 (p.addr + p.size) = p.addr + p.size := mod_eq_of_lt (by omega)
    unfold prMemfreeMergePrev
    rw [concat_eq_append] at *
    rw [last_concat, hf.size p (by simp), hend]
    split_ifs with hmerge
    · have hsum : u32 (p.size + size) = p.size + size := mod_eq_of_lt (by omega)
      rw [hsum]
      rw [append_assoc, singleton_append] at hf hsp
      refine ⟨_, hf.merge hsp hbase hlimit (by omega), .inr ⟨us, p, rfl, hmerge.2, rfl⟩,
        fun x hx => mem_merge hf hsp ?_⟩
      rwa [append_assoc, singleton_append] at hx
    · refine ⟨_, hf, .inl ⟨rfl, fun a ha => ?_⟩, fun x _ => rfl⟩
      have hne : p.addr + p.size ≠ c.addr := fun e => hmerge ⟨by omega, e⟩
      rcases mem_append.1 ha with ha | ha
      · have hap := hsp.left.le ha (mem_singleton_self p)
        have h12 := hsp.header p (by simp)
        omega
      · rw [mem_singleton.1 ha]
        omega

/-- The header of a block in use. -/
theorem headerOf_eq {a : ℕ} (ha : a < 2 ^ 31) : headerOf (a + 8) = a := by
  unfold headerOf u32
  omega

/-- **A block put onto the list** is merged with what it touches, and the layout is kept. -/
theorem prMemfreePut_spec {c : QcBlock} (hlist : FreeList h (xs ++ ys))
    (hlay : Layout base h.addressableused (xs ++ ys) live)
    (hin : base ≤ c.addr ∧ 12 ≤ c.size ∧ c.addr + c.size < h.addressableused) (hxs : ∀ a ∈ xs, a.addr + a.size ≤ c.addr)
    (hys : ∀ a ∈ ys, c.addr + c.size ≤ a.addr) (hlive : ∀ d ∈ live, Apart d.addr d.size c.addr c.size)
    (hlimit : h.addressableused ≤ 2 ^ 32) :
    ∃ free', FreeList (h.prMemfreePut c.addr c.size (Chain.last 0 (addrs xs)) ((addrs ys).headD 0))
        free' ∧
      Layout base h.addressableused free' live ∧
      (∀ x, x ∉ headers (xs ++ ys) → (x < c.addr ∨ c.addr + c.size ≤ x) →
        (h.prMemfreePut c.addr c.size (Chain.last 0 (addrs xs)) ((addrs ys).headD 0)).mem x =
          h.mem x) ∧
      ∀ a ∈ addrs (xs ++ ys), a ∈ addrs free' ∨ a = c.addr + c.size := by
  obtain ⟨hcx, hcy⟩ := chain_append.1 (addrs_append xs ys ▸ hlist.chain)
  have hsp := hlay.spaced.put hin hxs hys
  have hput := FreeList.putBetween hcx hcy hlist.head_left hlist.size hsp hlay.base_pos hlimit
  have hmem {x : ℕ} (hx : x ∉ headers (xs ++ c :: ys)) := mem_putBetween (h := h) hx
  rw [← prMemfreeInsert_eq hsp] at hput
  obtain ⟨c', ys', hnext, hcase, hsame⟩ :=
    prMemfreeMergeNext_spec hput hsp hlay.base_pos hlimit
  -- what the first merge leaves
  have hsub : ys'.Sublist ys := by
    rcases hcase with ⟨-, rfl, -⟩ | ⟨n, rfl, -, -⟩
    · exact List.Sublist.refl _
    · exact sublist_cons_self n ys'
  have hlay' := hlay.sublist ((List.Sublist.refl xs).append hsub)
  have hc' : c'.addr = c.addr ∧ c.size ≤ c'.size ∧ c'.addr + c'.size < h.addressableused ∧
      (∀ a ∈ ys', c'.addr + c'.size < a.addr) ∧
      ∀ d ∈ live, Apart d.addr d.size c'.addr c'.size := by
    rcases hcase with ⟨rfl, rfl, hlt⟩ | ⟨n, rfl, hn, rfl⟩
    · exact ⟨rfl, le_rfl, hin.2.2, hlt, hlive⟩
    · have hnw := hlay.within n (by simp)
      refine ⟨rfl, le_add_right _ _, ?_, fun a ha => ?_, fun d hd => ?_⟩
      · change c.addr + (c.size + n.size) < _
        omega
      · have hna := hlay.around.2 a ha
        change c.addr + (c.size + n.size) < _
        omega
      · have hdc := hlive d hd
        have hdn := hlay.off d hd n (by simp)
        have hd12 := (hlay.room d hd).2
        unfold Apart at hdc hdn ⊢
        change _ ≤ c.addr ∨ c.addr + (c.size + n.size) ≤ _
        omega
  obtain ⟨ha, hsize, hend, hys', hlive'⟩ := hc'
  have hin' : base ≤ c'.addr ∧ 12 ≤ c'.size ∧ c'.addr + c'.size < h.addressableused :=
    ⟨by omega, by omega, hend⟩
  have hsp' := hlay'.spaced.put hin' (fun a ha' => by have := hxs a ha'; omega)
    fun a ha' => le_of_lt (hys' a ha')
  obtain ⟨free', hprev, hcase', hsame'⟩ :=
    prMemfreeMergePrev_spec hnext hsp' hlay.base_pos hlimit hsize
  rw [ha] at hprev hsame'
  refine ⟨free', hprev, ?_, fun x hx hxc => ?_, fun a ha' => ?_⟩
  · rcases hcase' with ⟨rfl, hlt⟩ | ⟨us, p, rfl, hp, rfl⟩
    · exact hlay'.put hin' hlt hys' hlive'
    · have hpw := hlay.within p (by simp)
      have hus : (us ++ ys').Sublist (us ++ [p] ++ ys') := by
        rw [append_assoc]
        exact (List.Sublist.refl us).append (sublist_append_right [p] ys')
      have hpa : ∀ a ∈ us, a.addr + a.size < p.addr := fun a ha' => by
        rw [append_assoc, singleton_append] at hlay
        exact hlay.around.1 a ha'
      refine (hlay'.sublist hus).put ⟨hpw.1, ?_, ?_⟩ hpa (fun a ha' => ?_) fun d hd => ?_
      · exact le_add_right_of_le hpw.2.1
      · change p.addr + (p.size + c.size) < _
        omega
      · have := hys' a ha'
        change p.addr + (p.size + c.size) < _
        omega
      · have hdc := hlive d hd
        have hdp := hlay.off d hd p (by simp)
        have hd12 := (hlay.room d hd).2
        unfold Apart at hdc hdp ⊢
        change _ ≤ p.addr ∨ p.addr + (p.size + c.size) ≤ _
        omega
  · obtain ⟨hxx, hxy⟩ := not_mem_headers_append.1 hx
    have hxc' : x < c.addr ∨ c.addr + 12 ≤ x := by omega
    have hxy' : x ∉ headers ys' := fun ⟨b, hb, hbx⟩ => hxy ⟨b, hsub.subset hb, hbx⟩
    have hall : x ∉ headers (xs ++ c :: ys) :=
      not_mem_headers_append.2 ⟨hxx, not_mem_headers_cons.2 ⟨hxc', hxy⟩⟩
    rw [prMemfreePut, hsame' x (not_mem_headers_append.2 ⟨hxx, not_mem_headers_cons.2 ⟨by
      rwa [ha], hxy'⟩⟩), hsame x hall, prMemfreeInsert_eq hsp, hmem hall]
  · have hys'' : a ∈ addrs ys → a ∈ addrs ys' ∨ a = c.addr + c.size := by
      rcases hcase with ⟨-, rfl, -⟩ | ⟨n, rfl, hn, -⟩
      · exact .inl
      · simp only [addrs_cons, mem_cons, hn]
        tauto
    rcases hcase' with ⟨rfl, -⟩ | ⟨us, p, rfl, -, rfl⟩
    all_goals
      simp only [addrs_append, addrs_cons, addrs_nil, mem_append, mem_cons] at ha' ⊢
      tauto

theorem used_put (h : QcHeap) (ptr size pa na : ℕ) :
    (h.prMemfreePut ptr size pa na).addressableused = h.addressableused := by
  have hinsert : (h.prMemfreeInsert ptr size pa na).addressableused = h.addressableused := by
    unfold prMemfreeInsert linkNext linkPrev
    split_ifs <;> rfl
  have hnext (h : QcHeap) : (h.prMemfreeMergeNext ptr size na).addressableused =
      h.addressableused := by
    unfold prMemfreeMergeNext
    split_ifs
    · exact used_link ..
    · rfl
  have hprev (h : QcHeap) : (h.prMemfreeMergePrev ptr size pa).addressableused =
      h.addressableused := by
    unfold prMemfreeMergePrev
    split_ifs
    · exact used_link ..
    · rfl
  rw [prMemfreePut, hprev, hnext, hinsert]

theorem size_put (h : QcHeap) (ptr size pa na : ℕ) :
    (h.prMemfreePut ptr size pa na).addressablesize = h.addressablesize := by
  have hinsert : (h.prMemfreeInsert ptr size pa na).addressablesize = h.addressablesize := by
    unfold prMemfreeInsert linkNext linkPrev
    split_ifs <;> rfl
  have hnext (h : QcHeap) : (h.prMemfreeMergeNext ptr size na).addressablesize =
      h.addressablesize := by
    unfold prMemfreeMergeNext
    split_ifs
    · exact size_link ..
    · rfl
  have hprev (h : QcHeap) : (h.prMemfreeMergePrev ptr size pa).addressablesize =
      h.addressablesize := by
    unfold prMemfreeMergePrev
    split_ifs
    · exact size_link ..
    · rfl
  rw [prMemfreePut, hprev, hnext, hinsert]

/-- The header before the pointer, where one can be read, carries the marker. -/
def Carries (h : QcHeap) (ptr : ℕ) : Prop :=
  headerOf ptr < h.addressableused ∧ h.marker (headerOf ptr) = markerUsed

/-- A pointer whose header lacks the marker is not freed. -/
theorem prMemfree_of_not_carries {ptr : ℕ} (hg : Good base h free live) (hc : ¬h.Carries ptr) :
    h.prMemfree ptr = some h := by
  by_cases h0 : ptr = 0
  · rw [prMemfree, if_pos h0]
  · have hbad : h.addressableused ≤ headerOf ptr ∨ ¬h.Marked ptr := by
      by_contra hok
      rw [not_or, not_not] at hok
      exact hc ⟨not_le.1 hok.1, hok.2.1⟩
    rw [prMemfree, if_neg h0, hg.validate, Option.bind_eq_bind, Option.bind_some, if_pos hbad]
    rfl

/-- A block in use is marked. -/
theorem Good.isMarked (hg : Good base h free live) (hc : c ∈ live) :
    headerOf (c.addr + 8) = c.addr ∧ c.addr < h.addressableused ∧ h.Marked (c.addr + 8) := by
  have hin := hg.layout.inside c hc
  have h12 := (hg.layout.room c hc).2
  have hlt := hg.used_lt
  have hle := hg.size_le
  obtain ⟨hm, hs⟩ := hg.marked c hc
  have hhead : headerOf (c.addr + 8) = c.addr := headerOf_eq (by omega)
  have hend : u32 (c.addr + c.size) = c.addr + c.size := mod_eq_of_lt (by omega)
  have hused : u32 h.addressableused = h.addressableused := mod_eq_of_lt (by omega)
  refine ⟨hhead, by omega, ?_⟩
  unfold Marked
  rw [hhead, hm, hs, hend, hused]
  exact ⟨rfl, by omega, by omega⟩

/-- A block that its neighbours do not reach into is put onto the list. -/
theorem prMemfreeAt_of_apart {c : QcBlock} {r : Bool} (hlist : FreeList h (xs ++ ys))
    (hxs : ∀ a ∈ xs, a.addr + a.size ≤ c.addr) (hys : ∀ a ∈ ys, c.addr + c.size ≤ a.addr)
    (hlt : c.addr + c.size < 2 ^ 32)
    (hval : (h.prMemfreePut c.addr c.size (Chain.last 0 (addrs xs)) ((addrs ys).headD 0)).prMemvalidate = some r) :
    h.prMemfreeAt c.addr c.size (some (Chain.last 0 (addrs xs), (addrs ys).headD 0)) =
      some (h.prMemfreePut c.addr c.size (Chain.last 0 (addrs xs)) ((addrs ys).headD 0)) := by
  have hpa : ¬(Chain.last 0 (addrs xs) ≠ 0 ∧
      c.addr < u32 (Chain.last 0 (addrs xs) + h.size (Chain.last 0 (addrs xs)))) := by
    rintro ⟨hne, hlt'⟩
    obtain ⟨p, hp, hpx⟩ := mem_map.1 ((last_eq_zero_or_mem xs).resolve_left hne)
    have hend := hxs p hp
    rw [← hpx, hlist.size p (mem_append_left _ hp), u32, mod_eq_of_lt (by omega)] at hlt'
    omega
  have hna : ¬((addrs ys).headD 0 ≠ 0 ∧ (addrs ys).headD 0 < u32 (c.addr + c.size)) := by
    rintro ⟨hne, hlt'⟩
    obtain ⟨n, hn, hny⟩ := mem_map.1 ((headD_eq_zero_or_mem ys).resolve_left hne)
    have hend := hys n hn
    rw [← hny, u32, mod_eq_of_lt hlt] at hlt'
    omega
  rw [prMemfreeAt, if_neg hpa, if_neg hna, hval]
  rfl

/-- The marker of a block in use is taken away, and its place on the list found. -/
theorem prMemfreeBlock_spec {us vs : List QcLive} (hg : Good base h free (us ++ c :: vs)) :
    ∃ h' free', h.prMemfreeBlock c.addr = some h' ∧ Good base h' free' (us ++ vs) ∧
      h'.addressableused = h.addressableused ∧ Frame h h' free free' c.addr c.size ∧
      ∀ a ∈ addrs free, a ∈ addrs free' ∨ a = c.addr + c.size := by
  have hmem : c ∈ us ++ c :: vs := by simp
  have hin := hg.layout.inside c hmem
  have h12 := (hg.layout.room c hmem).2
  have hlim := hg.limit_le
  obtain ⟨hlive, hfree⟩ := hg.layout.around_live
  have hlay := hg.layout.sublist_live Layout.middle
  have hsame : ∀ x, x < c.addr ∨ c.addr + c.size ≤ x → (h.setMarker c.addr 0).mem x = h.mem x :=
    fun x hx => Mem.setWord_apply_of_out _ _ (by omega)
  have hlist : FreeList (h.setMarker c.addr 0) free := by
    refine hg.list.of_headers (fun x hx => hsame x ?_) rfl
    by_contra hout
    exact not_mem_headers hg.layout hmem (by omega) (by omega) hx
  obtain ⟨xs, ys, rfl, hxs, hys, hfind⟩ := hlist.findPlace c.addr hlay.spaced hlay.base_pos
    (by change c.addr < h.addressableused; omega)
  change (h.setMarker c.addr 0).prMemfreeFind c.addr (h.addressableused + 1) 0 h.mfreelist = _ at hfind
  have hxs' : ∀ a ∈ xs, a.addr + a.size ≤ c.addr := fun a ha => by
    have hlt := hxs a ha
    have hca := hfree a (mem_append_left _ ha)
    have ha12 := (hlay.within a (mem_append_left _ ha)).2.1
    unfold Apart at hca
    omega
  have hys' : ∀ a ∈ ys, c.addr + c.size ≤ a.addr := fun a ha => by
    have hle := hys a ha
    have hca := hfree a (mem_append_right _ ha)
    have ha12 := (hlay.within a (mem_append_right _ ha)).2.1
    unfold Apart at hca
    omega
  obtain ⟨free', hput, hlay', hframe, hkept⟩ := prMemfreePut_spec (c := ⟨c.addr, c.size⟩) hlist hlay
    ⟨hin.1, h12, hin.2⟩ hxs' hys' hlive hlim
  have hmarked : ∀ d ∈ us ++ vs, (h.setMarker c.addr 0).marker d.addr = markerUsed ∧
        (h.setMarker c.addr 0).usedSize d.addr = d.size := fun d hd => by
    have hdc := hlive d hd
    unfold Apart at hdc
    exact marked_of_same (hg.marked d (Layout.middle.subset hd))
      (hg.layout.room d (Layout.middle.subset hd)).2 fun x _ _ => hsame x (by omega)
  have hgood : Good base ((h.setMarker c.addr 0).prMemfreePut c.addr c.size
      (Chain.last 0 (addrs xs)) ((addrs ys).headD 0)) free' (us ++ vs) := by
    refine ⟨hput, ?_, fun d hd => ?_, ?_, ?_, ?_⟩
    · rw [used_put]
      exact hlay'
    · have hdc := hlive d hd
      unfold Apart at hdc
      exact marked_of_same (hmarked d hd) (hlay.room d hd).2 fun x hx hx' =>
        hframe x (not_mem_headers hlay hd hx hx') (by simp only; omega)
    · rw [used_put]
      exact hg.base_le
    · rw [used_put, size_put]
      exact hg.used_lt
    · rw [size_put]
      exact hg.size_le
  refine ⟨_, free', ?_, hgood, by rw [used_put]; rfl, fun x _ hx _ hxc => ?_, hkept⟩
  · have hsize : h.usedSize c.addr = c.size := (hg.marked c hmem).2
    rw [prMemfreeBlock, hfind, hsize]
    exact prMemfreeAt_of_apart (c := ⟨c.addr, c.size⟩) hlist hxs' hys' (by simp only; omega)
      hgood.validate
  · rw [hframe x hx hxc, hsame x hxc]

/-- **`PR_memfree`** gives a block in use back. -/
theorem prMemfree_spec {us vs : List QcLive} (hg : Good base h free (us ++ c :: vs)) :
    ∃ h' free', h.prMemfree (c.addr + 8) = some h' ∧ Good base h' free' (us ++ vs) ∧
      h'.addressableused = h.addressableused ∧ Frame h h' free free' c.addr c.size ∧
      ∀ a ∈ addrs free, a ∈ addrs free' ∨ a = c.addr + c.size := by
  obtain ⟨hhead, hlt, hmarked⟩ := hg.isMarked (c := c) (by simp)
  have hok : ¬(h.addressableused ≤ headerOf (c.addr + 8) ∨ ¬h.Marked (c.addr + 8)) := by
    rw [hhead, not_or, not_not]
    exact ⟨not_le.2 hlt, hmarked⟩
  rw [prMemfree, if_neg (succ_ne_zero _), hg.validate, Option.bind_eq_bind, Option.bind_some, if_neg hok, hhead]
  exact prMemfreeBlock_spec hg

end QcHeap

end FteQuake
