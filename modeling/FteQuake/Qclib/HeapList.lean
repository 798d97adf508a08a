import FteQuake.Qclib.Heap
import Mathlib.Data.Finset.Card
import Mathlib.Data.Finset.Range
import Mathlib.Data.List.Pairwise

/-!
# The free list of the QuakeC heap

`FreeList h free` says that the free blocks of `h`, from the head of the list on, are those of
`free`; `Spaced` that these lie apart, in ascending order. Each operation on the list is one lemma:
what `PR_memvalidate` and the searches find (`FreeList.validate`, `FreeList.find`,
`FreeList.findPlace`), and what unlinking, splitting and merging make of the list.
-/

namespace FteQuake

open List Mem Chain

/-- A block of memory. -/
structure QcBlock where
  addr : ℕ
  size : ℕ
  deriving DecidableEq

/-- The offsets of blocks. -/
def addrs (free : List QcBlock) : List ℕ := free.map QcBlock.addr

@[simp] theorem addrs_nil : addrs [] = [] := rfl

@[simp] theorem addrs_cons (b : QcBlock) (free : List QcBlock) :
    addrs (b :: free) = b.addr :: addrs free := rfl

@[simp] theorem addrs_append (xs ys : List QcBlock) : addrs (xs ++ ys) = addrs xs ++ addrs ys :=
  map_append

/-- Blocks that lie apart between `base` and `limit`, in ascending order. -/
structure Spaced (base limit : ℕ) (free : List QcBlock) : Prop where
  ascending : free.Pairwise fun a b => a.addr + a.size ≤ b.addr
  low : ∀ b ∈ free, base ≤ b.addr
  header : ∀ b ∈ free, 12 ≤ b.size
  high : ∀ b ∈ free, b.addr + b.size < limit

namespace Spaced

variable {base limit : ℕ} {free xs ys : List QcBlock}

theorem tail {b : QcBlock} (h : Spaced base limit (b :: free)) : Spaced base limit free :=
  ⟨(pairwise_cons.1 h.ascending).2, fun c hc => h.low c (.tail b hc),
    fun c hc => h.header c (.tail b hc),
    fun c hc => h.high c (.tail b hc)⟩

theorem sublist (h : Spaced base limit free) (hs : xs.Sublist free) : Spaced base limit xs :=
  ⟨h.ascending.sublist hs, fun b hb => h.low b (hs.subset hb), fun b hb => h.header b (hs.subset hb),
    fun b hb => h.high b (hs.subset hb)⟩

theorem left (h : Spaced base limit (xs ++ ys)) : Spaced base limit xs :=
  h.sublist (sublist_append_left xs ys)

theorem right (h : Spaced base limit (xs ++ ys)) : Spaced base limit ys :=
  h.sublist (sublist_append_right xs ys)

/-- Blocks of the first part lie before those of the second. -/
theorem le (h : Spaced base limit (xs ++ ys)) {a b : QcBlock} (ha : a ∈ xs) (hb : b ∈ ys) :
    a.addr + a.size ≤ b.addr :=
  (pairwise_append.1 h.ascending).2.2 a ha b hb

/-- One more block. -/
theorem put {c : QcBlock} (h : Spaced base limit (xs ++ ys))
    (hc : base ≤ c.addr ∧ 12 ≤ c.size ∧ c.addr + c.size < limit)
    (hxs : ∀ a ∈ xs, a.addr + a.size ≤ c.addr) (hys : ∀ a ∈ ys, c.addr + c.size ≤ a.addr) :
    Spaced base limit (xs ++ c :: ys) := by
  obtain ⟨hx, hy, hxy⟩ := pairwise_append.1 h.ascending
  have hmem {a : QcBlock} (ha : a ∈ xs ++ c :: ys) : a = c ∨ a ∈ xs ++ ys := by
    simp only [mem_append, mem_cons] at ha ⊢
    tauto
  refine ⟨?_, fun a ha => ?_, fun a ha => ?_, fun a ha => ?_⟩
  · refine pairwise_append.2 ⟨hx, pairwise_cons.2 ⟨hys, hy⟩, fun a ha b hb => ?_⟩
    rcases mem_cons.1 hb with rfl | hb
    · exact hxs a ha
    · exact hxy a ha b hb
  · rcases hmem ha with rfl | ha
    · exact hc.1
    · exact h.low a ha
  · rcases hmem ha with rfl | ha
    · exact hc.2.1
    · exact h.header a ha
  · rcases hmem ha with rfl | ha
    · exact hc.2.2
    · exact h.high a ha

/-- The offsets of two blocks are a header apart. -/
theorem apart (h : Spaced base limit free) {a b : ℕ} (ha : a ∈ addrs free) (hb : b ∈ addrs free)
    (hne : a ≠ b) : a + 12 ≤ b ∨ b + 12 ≤ a := by
  obtain ⟨x, hx, rfl⟩ := mem_map.1 ha
  obtain ⟨y, hy, rfl⟩ := mem_map.1 hb
  have hx' := h.header x hx
  have hy' := h.header y hy
  have hxy : x ≠ y := fun e => hne (e ▸ rfl)
  have : Std.Symm fun a b : QcBlock => a.addr + a.size ≤ b.addr ∨ b.addr + b.size ≤ a.addr :=
    ⟨fun _ _ => Or.symm⟩
  have hor : free.Pairwise fun a b => a.addr + a.size ≤ b.addr ∨ b.addr + b.size ≤ a.addr :=
    h.ascending.imp Or.inl
  have := hor.forall hx hy hxy
  omega

theorem nodup (h : Spaced base limit free) : (addrs free).Nodup := by
  refine pairwise_map.2 (h.ascending.imp_of_mem ?_)
  intro a b ha _ hlt
  have := h.header a ha
  omega

/-- There are fewer blocks than bytes. -/
theorem length_le (h : Spaced base limit free) : free.length ≤ limit := by
  have hsub : (addrs free).toFinset ⊆ Finset.range limit := by
    intro a ha
    obtain ⟨b, hb, rfl⟩ := mem_map.1 (mem_toFinset.1 ha)
    have := h.high b hb
    exact Finset.mem_range.2 (by omega)
  have hcard := Finset.card_le_card hsub
  rwa [toFinset_card_of_nodup h.nodup, Finset.card_range, addrs, length_map] at hcard

end Spaced

/-- The free blocks of `h` are those of `free`. -/
structure FreeList (h : QcHeap) (free : List QcBlock) : Prop where
  chain : Chain h.next h.prev 0 (addrs free) 0
  head : h.mfreelist = (addrs free).headD 0
  size : ∀ b ∈ free, h.size b.addr = b.size

namespace QcHeap

variable (h : QcHeap)

/-! ## Fields of headers that lie apart -/

variable {a b x : ℕ}

theorem linkNext_of_ne (hb : b ≠ 0) (x : ℕ) : h.linkNext b x = h.setNext b x := if_pos hb

theorem linkPrev_of_ne (hb : b ≠ 0) (x : ℕ) : h.linkPrev b x = h.setPrev b x := if_pos hb

theorem next_linkNext_self (hb : b ≠ 0) (hx : x < 2 ^ 32) :
    (h.linkNext b x).next b = x := by
  rw [linkNext_of_ne h hb]
  exact word_setWord_self _ _ hx

theorem prev_linkPrev_self (hb : b ≠ 0) (hx : x < 2 ^ 32) :
    (h.linkPrev b x).prev b = x := by
  rw [linkPrev_of_ne h hb]
  exact word_setWord_self _ _ hx

theorem next_linkNext (hab : b = 0 ∨ a + 12 ≤ b ∨ b + 12 ≤ a) :
    (h.linkNext b x).next a = h.next a := by
  by_cases hb : b = 0
  · rw [hb]
    rfl
  · rw [linkNext_of_ne h hb]
    exact word_setWord_of_apart _ _ (by omega)

theorem prev_linkNext (hab : b = 0 ∨ a = b ∨ a + 12 ≤ b ∨ b + 12 ≤ a) :
    (h.linkNext b x).prev a = h.prev a := by
  by_cases hb : b = 0
  · rw [hb]
    rfl
  · rw [linkNext_of_ne h hb]
    exact word_setWord_of_apart _ _ (by omega)

theorem size_linkNext (hab : b = 0 ∨ a = b ∨ a + 12 ≤ b ∨ b + 12 ≤ a) :
    (h.linkNext b x).size a = h.size a := by
  by_cases hb : b = 0
  · rw [hb]
    rfl
  · rw [linkNext_of_ne h hb]
    exact word_setWord_of_apart _ _ (by omega)

theorem next_linkPrev (hab : b = 0 ∨ a = b ∨ a + 12 ≤ b ∨ b + 12 ≤ a) :
    (h.linkPrev b x).next a = h.next a := by
  by_cases hb : b = 0
  · rw [hb]
    rfl
  · rw [linkPrev_of_ne h hb]
    exact word_setWord_of_apart _ _ (by omega)

theorem prev_linkPrev (hab : b = 0 ∨ a + 12 ≤ b ∨ b + 12 ≤ a) :
    (h.linkPrev b x).prev a = h.prev a := by
  by_cases hb : b = 0
  · rw [hb]
    rfl
  · rw [linkPrev_of_ne h hb]
    exact word_setWord_of_apart _ _ (by omega)

theorem size_linkPrev (hab : b = 0 ∨ a = b ∨ a + 12 ≤ b ∨ b + 12 ≤ a) :
    (h.linkPrev b x).size a = h.size a := by
  by_cases hb : b = 0
  · rw [hb]
    rfl
  · rw [linkPrev_of_ne h hb]
    exact word_setWord_of_apart _ _ (by omega)

theorem mfreelist_linkNext (b x : ℕ) :
    (h.linkNext b x).mfreelist = if b = 0 then x else h.mfreelist := by
  unfold linkNext
  split_ifs <;> first | rfl | contradiction

theorem mfreelist_linkPrev (b x : ℕ) : (h.linkPrev b x).mfreelist = h.mfreelist := by
  unfold linkPrev
  split_ifs <;> rfl

/-- The byte `x` is not one of the header at `b`. -/
def OffHeader (b x : ℕ) : Prop := b = 0 ∨ x < b ∨ b + 12 ≤ x

theorem mem_linkNext {v : ℕ} (hx : OffHeader b x) : (h.linkNext b v).mem x = h.mem x := by
  unfold linkNext
  split_ifs with hb
  · exact setWord_apply_of_out _ _ (by unfold OffHeader at hx; omega)
  · rfl

theorem mem_linkPrev {v : ℕ} (hx : OffHeader b x) : (h.linkPrev b v).mem x = h.mem x := by
  unfold linkPrev
  split_ifs with hb
  · exact setWord_apply_of_out _ _ (by unfold OffHeader at hx; omega)
  · rfl

/-- The two links of a block can be made in either order. -/
theorem linkPrev_linkNext {y : ℕ} (hab : a = 0 ∨ b = 0 ∨ a + 12 ≤ b ∨ b + 12 ≤ a) :
    (h.linkPrev b y).linkNext a x = (h.linkNext a x).linkPrev b y := by
  by_cases ha : a = 0
  · subst ha
    unfold linkPrev
    split_ifs <;> rfl
  · by_cases hb : b = 0
    · subst hb
      rfl
    · rw [linkNext_of_ne _ ha, linkNext_of_ne _ ha, linkPrev_of_ne _ hb, linkPrev_of_ne _ hb, setNext,
        setPrev, setPrev, setNext]
      congr 1
      exact setWord_comm _ _ _ (by omega)

end QcHeap

/-! ## Operations on the list -/

section List

variable {h : QcHeap} {base : ℕ} {free xs ys mid : List QcBlock}

/-- The neighbours of a list of blocks. -/
theorem last_eq_zero_or_mem (xs : List QcBlock) :
    last 0 (addrs xs) = 0 ∨ last 0 (addrs xs) ∈ addrs xs := by
  cases xs with
  | nil => exact .inl rfl
  | cons b xs => exact .inr (last_mem _ _ (cons_ne_nil _ _))

theorem headD_eq_zero_or_mem (ys : List QcBlock) :
    (addrs ys).headD 0 = 0 ∨ (addrs ys).headD 0 ∈ addrs ys := by
  cases ys with
  | nil => exact .inl rfl
  | cons b ys => exact .inr (.head _)

variable {b c : QcBlock} {h h' : QcHeap} {a fuel limit n p size x : ℕ}

theorem Spaced.pos (hsp : Spaced base limit free) (hbase : 0 < base) (ha : a ∈ addrs free) : a ≠ 0 := by
  obtain ⟨b, hb, rfl⟩ := mem_map.1 ha
  have := hsp.low b hb
  omega

/-- Offsets fit their field. -/
theorem Spaced.addr_lt (hsp : Spaced base limit free) (ha : a ∈ addrs free) :
    a < limit := by
  obtain ⟨b, hb, rfl⟩ := mem_map.1 ha
  have := hsp.high b hb
  omega

/-- The bytes of the headers of blocks. -/
def headers (free : List QcBlock) : Set ℕ := {x | ∃ b ∈ free, b.addr ≤ x ∧ x < b.addr + 12}

/-- A header whose bytes did not change. -/
theorem QcHeap.header_congr (hmem : ∀ x, a ≤ x → x < a + 12 → h'.mem x = h.mem x) :
    h'.next a = h.next a ∧ h'.prev a = h.prev a ∧ h'.size a = h.size a := by
  refine ⟨word_congr fun x _ _ => ?_, word_congr fun x _ _ => ?_,
    word_congr fun x _ _ => ?_⟩ <;> exact hmem x (by omega) (by omega)

theorem not_mem_headers_append :
    x ∉ headers (xs ++ ys) ↔ x ∉ headers xs ∧ x ∉ headers ys := by
  simp only [headers, Set.mem_ofPred_eq, mem_append, or_and_right, exists_or, not_or]

theorem not_mem_headers_cons :
    x ∉ headers (b :: xs) ↔ (x < b.addr ∨ b.addr + 12 ≤ x) ∧ x ∉ headers xs := by
  simp only [headers, Set.mem_ofPred_eq, mem_cons, or_and_right, exists_or, not_or,
    exists_eq_left, not_and_or, not_le, not_lt]

/-- The links of blocks whose headers did not change. -/
theorem chain_of_headers (hc : Chain h.next h.prev p (addrs free) n) (hmem : ∀ x ∈ headers free, h'.mem x = h.mem x) :
    Chain h'.next h'.prev p (addrs free) n := by
  have hsame {a : ℕ} (ha : a ∈ addrs free) : h'.next a = h.next a ∧ h'.prev a = h.prev a := by
    obtain ⟨b, hb, rfl⟩ := mem_map.1 ha
    obtain ⟨hnext, hprev, -⟩ := QcHeap.header_congr fun x hx hx' => hmem x ⟨b, hb, hx, hx'⟩
    exact ⟨hnext, hprev⟩
  exact hc.congr (fun a ha => (hsame ha).1) fun a ha => (hsame ha).2

/-- A list whose headers did not change. -/
theorem FreeList.of_headers (hf : FreeList h free)
    (hmem : ∀ x ∈ headers free, h'.mem x = h.mem x) (hhead : h'.mfreelist = h.mfreelist) :
    FreeList h' free := by
  refine ⟨chain_of_headers hf.chain hmem, by rw [hhead, hf.head], fun b hb => ?_⟩
  rw [(QcHeap.header_congr fun x hx hx' => hmem x ⟨b, hb, hx, hx'⟩).2.2, hf.size b hb]

/-- A block on the list, and its neighbours. -/
theorem FreeList.at_block (hf : FreeList h (xs ++ b :: ys)) :
    Chain h.next h.prev 0 (addrs xs) b.addr ∧ Chain h.next h.prev b.addr (addrs ys) 0 ∧
      h.prev b.addr = last 0 (addrs xs) ∧ h.next b.addr = (addrs ys).headD 0 := by
  have hc := hf.chain
  rw [addrs_append, chain_append] at hc
  obtain ⟨hxs, hprev, hnext, hys⟩ := hc
  exact ⟨hxs, hys, hprev, hnext⟩

theorem FreeList.head_left (hf : FreeList h (xs ++ ys)) (hxs : xs ≠ []) :
    h.mfreelist = (addrs xs).headD 0 := by
  rw [hf.head]
  cases xs with
  | nil => exact absurd rfl hxs
  | cons b xs => rfl

/-- Links are bytes of headers of their blocks. -/
theorem mem_link {u v : ℕ} (hx : x ∉ headers xs) (hy : x ∉ headers ys) :
    ((h.linkNext (last 0 (addrs xs)) u).linkPrev ((addrs ys).headD 0) v).mem x = h.mem x := by
  have off {l : List QcBlock} {a : ℕ} (hl : x ∉ headers l) (ha : a = 0 ∨ a ∈ addrs l) :
      QcHeap.OffHeader a x := by
    rcases ha with ha | ha
    · exact .inl ha
    · obtain ⟨b, hb, rfl⟩ := mem_map.1 ha
      by_contra hoff
      unfold QcHeap.OffHeader at hoff
      exact hl ⟨b, hb, by omega, by omega⟩
  rw [QcHeap.mem_linkPrev _ (off hy (headD_eq_zero_or_mem ys)), QcHeap.mem_linkNext _ (off hx (last_eq_zero_or_mem xs))]

theorem last_concat (p : ℕ) (xs : List QcBlock) (b : QcBlock) :
    last p (addrs (xs ++ [b])) = b.addr := by
  rw [addrs_append, last_append]
  rfl

/-- **Two parts of a list are joined** by the blocks `mid`, which may be none. -/
theorem FreeList.join (mid : List QcBlock) (hxs : Chain h.next h.prev 0 (addrs xs) n)
    (hys : Chain h.next h.prev p (addrs ys) 0)
    (hmid : Chain h.next h.prev (last 0 (addrs xs)) (addrs mid) ((addrs ys).headD 0))
    (hhead : xs ≠ [] → h.mfreelist = (addrs xs).headD 0) (hsize : ∀ b ∈ xs ++ (mid ++ ys), h.size b.addr = b.size)
    (hsp : Spaced base limit (xs ++ (mid ++ ys))) (hbase : 0 < base) (hlimit : limit ≤ 2 ^ 32) :
    FreeList ((h.linkNext (last 0 (addrs xs)) ((addrs (mid ++ ys)).headD 0)).linkPrev
      ((addrs ys).headD 0) (last 0 (addrs (xs ++ mid)))) (xs ++ (mid ++ ys)) := by
  have hl := last_eq_zero_or_mem xs
  have hn := headD_eq_zero_or_mem ys
  have hnext := headD_eq_zero_or_mem (mid ++ ys)
  have hprev := last_eq_zero_or_mem (xs ++ mid)
  -- where the parts of the list are in the whole
  have mx {a : ℕ} (ha : a ∈ addrs xs) : a ∈ addrs (xs ++ (mid ++ ys)) := by
    rw [addrs_append]
    exact mem_append_left _ ha
  have mm {a : ℕ} (ha : a ∈ addrs mid) : a ∈ addrs (xs ++ (mid ++ ys)) := by
    rw [addrs_append, addrs_append]
    exact mem_append_right _ (mem_append_left _ ha)
  have my {a : ℕ} (ha : a ∈ addrs ys) : a ∈ addrs (xs ++ (mid ++ ys)) := by
    rw [addrs_append, addrs_append]
    exact mem_append_right _ (mem_append_right _ ha)
  have hnd := hsp.nodup
  rw [addrs_append, addrs_append, nodup_append, nodup_append] at hnd
  obtain ⟨hndx, ⟨hndm, hndy, hmy⟩, hxmy⟩ := hnd
  have hxy {a b : ℕ} (ha : a ∈ addrs xs) (hb : b ∈ addrs ys) : a ≠ b :=
    hxmy a ha b (mem_append_right _ hb)
  have hxm {a b : ℕ} (ha : a ∈ addrs xs) (hb : b ∈ addrs mid) : a ≠ b :=
    hxmy a ha b (mem_append_left _ hb)
  -- cells that are not the last of `xs` or the first of `ys` lie apart from these
  have offLast {a : ℕ} (ha : a ∈ addrs (xs ++ (mid ++ ys))) (hne : a ≠ last 0 (addrs xs)) :
      last 0 (addrs xs) = 0 ∨ a + 12 ≤ last 0 (addrs xs) ∨ last 0 (addrs xs) + 12 ≤ a :=
    hl.imp_right fun hl => hsp.apart ha (mx hl) hne
  have offHead {a : ℕ} (ha : a ∈ addrs (xs ++ (mid ++ ys))) (hne : a ≠ (addrs ys).headD 0) :
      (addrs ys).headD 0 = 0 ∨ a + 12 ≤ (addrs ys).headD 0 ∨ (addrs ys).headD 0 + 12 ≤ a :=
    hn.imp_right fun hn => hsp.apart ha (my hn) hne
  have offLast' {a : ℕ} (ha : a ∈ addrs (xs ++ (mid ++ ys))) : last 0 (addrs xs) = 0 ∨
      a = last 0 (addrs xs) ∨ a + 12 ≤ last 0 (addrs xs) ∨ last 0 (addrs xs) + 12 ≤ a := by
    by_cases hne : a = last 0 (addrs xs)
    · exact .inr (.inl hne)
    · exact (offLast ha hne).imp_right .inr
  have offHead' {a : ℕ} (ha : a ∈ addrs (xs ++ (mid ++ ys))) : (addrs ys).headD 0 = 0 ∨
      a = (addrs ys).headD 0 ∨ a + 12 ≤ (addrs ys).headD 0 ∨ (addrs ys).headD 0 + 12 ≤ a := by
    by_cases hne : a = (addrs ys).headD 0
    · exact .inr (.inl hne)
    · exact (offHead ha hne).imp_right .inr
  have hlast_ne {a : ℕ} (ha : a ∈ addrs (mid ++ ys)) : a ≠ last 0 (addrs xs) := by
    have hpos := hsp.pos hbase (a := a) (by rw [addrs_append]; exact mem_append_right _ ha)
    rcases hl with hl | hl
    · rw [hl]
      exact hpos
    · rw [addrs_append] at ha
      exact (hxmy _ hl a ha).symm
  have hhead_ne {a : ℕ} (ha : a ∈ addrs (xs ++ mid)) : a ≠ (addrs ys).headD 0 := by
    rw [addrs_append, mem_append] at ha
    have hmem : a ∈ addrs (xs ++ (mid ++ ys)) := ha.elim mx mm
    have hpos := hsp.pos hbase hmem
    rcases hn with hn | hn
    · rw [hn]
      exact hpos
    · exact ha.elim (fun ha => hxy ha hn) fun ha => hmy a ha _ hn
  have hlt (ha : (addrs (mid ++ ys)).headD 0 = 0 ∨ (addrs (mid ++ ys)).headD 0 ∈ addrs (mid ++ ys)) :
      (addrs (mid ++ ys)).headD 0 < 2 ^ 32 := by
    rcases ha with ha | ha
    · omega
    · have := hsp.right.addr_lt ha
      omega
  have hlt' (ha : last 0 (addrs (xs ++ mid)) = 0 ∨ last 0 (addrs (xs ++ mid)) ∈ addrs (xs ++ mid)) :
      last 0 (addrs (xs ++ mid)) < 2 ^ 32 := by
    rcases ha with ha | ha
    · omega
    · rw [← append_assoc] at hsp
      have := hsp.left.addr_lt ha
      omega
  refine ⟨?_, ?_, fun b hb => ?_⟩
  · have hsplit : addrs (xs ++ (mid ++ ys)) = addrs xs ++ (addrs mid ++ addrs ys) := by
      rw [addrs_append, addrs_append]
    rw [hsplit, chain_append, chain_append]
    refine ⟨hxs.relink_last hndx (fun a ha hne => ?_) (fun hne => ?_) fun a ha => ?_,
      hmid.congr (fun a ha => ?_) fun a ha => ?_,
      hys.relink_first hndy (fun a ha => ?_) (fun a ha hne => ?_) fun hne => ?_⟩
    · rw [QcHeap.next_linkPrev _ (offHead' (mx ha)), QcHeap.next_linkNext _ (offLast (mx ha) hne)]
    · have hmem := last_mem 0 (addrs xs) hne
      rw [QcHeap.next_linkPrev _ (offHead' (mx hmem)),
        QcHeap.next_linkNext_self _ (hsp.pos hbase (mx hmem)) (hlt hnext), addrs_append]
    · have hne := hhead_ne (a := a) (by rw [addrs_append]; exact mem_append_left _ ha)
      rw [QcHeap.prev_linkPrev _ (offHead (mx ha) hne), QcHeap.prev_linkNext _ (offLast' (mx ha))]
    · have hne := hlast_ne (a := a) (by rw [addrs_append]; exact mem_append_left _ ha)
      rw [QcHeap.next_linkPrev _ (offHead' (mm ha)), QcHeap.next_linkNext _ (offLast (mm ha) hne)]
    · have hne := hhead_ne (a := a) (by rw [addrs_append]; exact mem_append_right _ ha)
      rw [QcHeap.prev_linkPrev _ (offHead (mm ha) hne), QcHeap.prev_linkNext _ (offLast' (mm ha))]
    · have hne := hlast_ne (a := a) (by rw [addrs_append]; exact mem_append_right _ ha)
      rw [QcHeap.next_linkPrev _ (offHead' (my ha)), QcHeap.next_linkNext _ (offLast (my ha) hne)]
    · rw [QcHeap.prev_linkPrev _ (offHead (my ha) hne), QcHeap.prev_linkNext _ (offLast' (my ha))]
    · have hmem : (addrs ys).headD 0 ∈ addrs ys := by
        cases ys with
        | nil => exact absurd rfl hne
        | cons b ys => exact mem_cons_self ..
      rw [QcHeap.prev_linkPrev_self _ (hsp.pos hbase (my hmem)) (hlt' hprev), addrs_append, last_append]
  · rw [QcHeap.mfreelist_linkPrev, QcHeap.mfreelist_linkNext]
    by_cases hx : xs = []
    · subst hx
      rfl
    · have hmem := last_mem 0 (addrs xs) fun e => hx (map_eq_nil_iff.1 e)
      rw [if_neg (hsp.pos hbase (mx hmem)), hhead hx]
      cases xs with
      | nil => exact absurd rfl hx
      | cons b xs => rfl
  · have hmem : b.addr ∈ addrs (xs ++ (mid ++ ys)) := mem_map_of_mem hb
    rw [QcHeap.size_linkPrev _ (offHead' hmem), QcHeap.size_linkNext _ (offLast' hmem), hsize b hb]

/-- The neighbours of a block are linked to each other. -/
theorem pfFmemUnlink_of_links {b : ℕ} (hprev : h.prev b = p) (hnext : h.next b = n)
    (hoff : p = 0 ∨ b + 12 ≤ p ∨ p + 12 ≤ b) :
    h.pfFmemUnlink b = (h.linkNext p n).linkPrev n p := by
  unfold QcHeap.pfFmemUnlink
  simp only [hprev, hnext]
  rw [QcHeap.next_linkNext _ hoff, QcHeap.prev_linkNext _ (hoff.imp_right .inr), hprev, hnext]

theorem Spaced.last_apart (hsp : Spaced base limit (xs ++ b :: ys)) :
    last 0 (addrs xs) = 0 ∨ last 0 (addrs xs) + 12 ≤ b.addr := by
  refine (last_eq_zero_or_mem xs).imp_right fun hl => ?_
  obtain ⟨c, hc, hca⟩ := mem_map.1 hl
  have hle := hsp.le hc (.head _)
  have h12 := hsp.header c (mem_append_left _ hc)
  omega

theorem pfFmemUnlink_eq (hf : FreeList h (xs ++ b :: ys))
    (hsp : Spaced base limit (xs ++ b :: ys)) : h.pfFmemUnlink b.addr =
      (h.linkNext (last 0 (addrs xs)) ((addrs ys).headD 0)).linkPrev ((addrs ys).headD 0)
        (last 0 (addrs xs)) := by
  obtain ⟨-, -, hprev, hnext⟩ := hf.at_block
  exact pfFmemUnlink_of_links hprev hnext (hsp.last_apart.imp_right .inr)

theorem FreeList.unlink (hf : FreeList h (xs ++ b :: ys))
    (hsp : Spaced base limit (xs ++ b :: ys)) (hbase : 0 < base) (hlimit : limit ≤ 2 ^ 32) :
    FreeList (h.pfFmemUnlink b.addr) (xs ++ ys) := by
  obtain ⟨hxs, hys, -, -⟩ := hf.at_block
  have hsub : (xs ++ ys).Sublist (xs ++ b :: ys) :=
    (List.Sublist.refl xs).append (sublist_cons_self b ys)
  have hjoin := FreeList.join [] hxs hys trivial hf.head_left
    (fun c hc => hf.size c (hsub.subset hc)) (hsp.sublist hsub) hbase hlimit
  rw [append_nil] at hjoin
  rw [pfFmemUnlink_eq hf hsp]
  exact hjoin

/-- A header that is written at `a`. -/
def QcHeap.putHeader (h : QcHeap) (a prev next size : ℕ) : QcHeap :=
  ((h.setPrev a prev).setNext a next).setSize a size

/-- The fields of a new header, and what it leaves alone. -/
theorem QcHeap.putHeader_spec (h : QcHeap) (a : ℕ) {prev next : ℕ} (hprev : prev < 2 ^ 32)
    (hnext : next < 2 ^ 32) (hsize : size < 2 ^ 32) :
    (h.putHeader a prev next size).prev a = prev ∧ (h.putHeader a prev next size).next a = next ∧
      (h.putHeader a prev next size).size a = size ∧
      ∀ x, x < a ∨ a + 12 ≤ x → (h.putHeader a prev next size).mem x = h.mem x := by
  refine ⟨?_, ?_, word_setWord_self _ _ hsize, fun x hx => ?_⟩
  · change Mem.word (Mem.setWord (Mem.setWord (Mem.setWord h.mem _ _) _ _) _ _) _ = _
    rw [word_setWord_of_apart _ _ (by omega), word_setWord_of_apart _ _ (by omega),
      word_setWord_self _ _ hprev]
  · change Mem.word (Mem.setWord (Mem.setWord (Mem.setWord h.mem _ _) _ _) _ _) _ = _
    rw [word_setWord_of_apart _ _ (by omega), word_setWord_self _ _ hnext]
  · change Mem.setWord (Mem.setWord (Mem.setWord h.mem _ _) _ _) _ _ _ = _
    rw [setWord_apply_of_out _ _ (by omega), setWord_apply_of_out _ _ (by omega),
      setWord_apply_of_out _ _ (by omega)]

/-- A header that is written between two parts of a list, which are then linked to it. -/
theorem FreeList.putBetween (hxs : Chain h.next h.prev 0 (addrs xs) n) (hys : Chain h.next h.prev p (addrs ys) 0)
    (hhead : xs ≠ [] → h.mfreelist = (addrs xs).headD 0) (hsize : ∀ b ∈ xs ++ ys, h.size b.addr = b.size)
    (hsp : Spaced base limit (xs ++ c :: ys)) (hbase : 0 < base) (hlimit : limit ≤ 2 ^ 32) :
    FreeList (((h.putHeader c.addr (last 0 (addrs xs)) ((addrs ys).headD 0) c.size).linkNext
      (last 0 (addrs xs)) c.addr).linkPrev ((addrs ys).headD 0) c.addr) (xs ++ c :: ys) := by
  have hc := hsp.high c (by simp)
  have hlast : last 0 (addrs xs) < 2 ^ 32 := by
    rcases last_eq_zero_or_mem xs with hl | hl
    · omega
    · have := hsp.left.addr_lt hl
      omega
  have hnext : (addrs ys).headD 0 < 2 ^ 32 := by
    rcases headD_eq_zero_or_mem ys with hn | hn
    · omega
    · have := hsp.right.tail.addr_lt hn
      omega
  have hcs : c.size < 2 ^ 32 := by omega
  obtain ⟨hfp, hfn, hfs, hout⟩ := h.putHeader_spec c.addr hlast hnext hcs
  have hoff : ∀ b ∈ xs ++ ys, ∀ x, b.addr ≤ x → x < b.addr + 12 → x < c.addr ∨ c.addr + 12 ≤ x := by
    intro b hb x hx hx'
    have hcs := hsp.header c (by simp)
    rcases mem_append.1 hb with hb | hb
    · have hle := hsp.le hb (.head _)
      have hbs := hsp.header b (by simp [hb])
      omega
    · have hle := (pairwise_cons.1 hsp.right.ascending).1 b hb
      omega
  have hsame {l : List QcBlock} (hl : ∀ b ∈ l, b ∈ xs ++ ys) : ∀ x ∈ headers l,
      (h.putHeader c.addr (last 0 (addrs xs)) ((addrs ys).headD 0) c.size).mem x = h.mem x := by
    rintro x ⟨b, hb, hx, hx'⟩
    exact hout x (hoff b (hl b hb) x hx hx')
  have hsizes : ∀ b ∈ xs ++ ([c] ++ ys),
      (h.putHeader c.addr (last 0 (addrs xs)) ((addrs ys).headD 0) c.size).size b.addr =
        b.size := by
    intro b hb
    have hb' : b = c ∨ b ∈ xs ++ ys := by
      simp only [mem_append, mem_singleton] at hb ⊢
      tauto
    rcases hb' with rfl | hb'
    · exact hfs
    · rw [(QcHeap.header_congr fun x hx hx' => hout x (hoff b hb' x hx hx')).2.2, hsize b hb']
  have hjoin := FreeList.join [c] (chain_of_headers hxs (hsame fun b hb => mem_append_left _ hb))
    (chain_of_headers hys (hsame fun b hb => mem_append_right _ hb)) ⟨hfp, hfn, trivial⟩ hhead
    hsizes hsp hbase hlimit
  rw [last_concat] at hjoin
  exact hjoin

/-- What a header put between two parts changes. -/
theorem mem_putBetween (hx : x ∉ headers (xs ++ c :: ys)) :
    (((h.putHeader c.addr (last 0 (addrs xs)) ((addrs ys).headD 0) c.size).linkNext
      (last 0 (addrs xs)) c.addr).linkPrev ((addrs ys).headD 0) c.addr).mem x = h.mem x := by
  have hsub {l : List QcBlock} (hl : ∀ b ∈ l, b ∈ xs ++ c :: ys) : x ∉ headers l := by
    rintro ⟨b, hb, hbx⟩
    exact hx ⟨b, hl b hb, hbx⟩
  have hc : x < c.addr ∨ c.addr + 12 ≤ x := by
    by_contra hc
    exact hx ⟨c, by simp, by omega, by omega⟩
  rw [mem_link (hsub fun b hb => by simp [hb]) (hsub fun b hb => by simp [hb]), QcHeap.putHeader]
  change Mem.setWord (Mem.setWord (Mem.setWord h.mem _ _) _ _) _ _ _ = _
  rw [setWord_apply_of_out _ _ (by omega), setWord_apply_of_out _ _ (by omega),
    setWord_apply_of_out _ _ (by omega)]

/-- The header that a split writes. -/
theorem putHeader_of_block (hf : FreeList h (xs ++ b :: ys)) (h12 : 12 ≤ size) :
    ((h.setPrev (b.addr + size) (h.prev b.addr)).setNext (b.addr + size)
      ((h.setPrev (b.addr + size) (h.prev b.addr)).next b.addr)).setSize (b.addr + size)
        (((h.setPrev (b.addr + size) (h.prev b.addr)).setNext (b.addr + size)
          ((h.setPrev (b.addr + size) (h.prev b.addr)).next b.addr)).size b.addr - size) =
      h.putHeader (b.addr + size) (last 0 (addrs xs)) ((addrs ys).headD 0) (b.size - size) := by
  obtain ⟨-, -, hprev, hnext⟩ := hf.at_block
  have hb := hf.size b (by simp)
  have hnext' : (h.setPrev (b.addr + size) (h.prev b.addr)).next b.addr = (addrs ys).headD 0 := by
    rw [← hnext]
    exact word_setWord_of_apart _ _ (by omega)
  have hsize' (y : ℕ) : ((h.setPrev (b.addr + size) (h.prev b.addr)).setNext (b.addr + size)
      y).size b.addr = b.size := by
    rw [← hb]
    change Mem.word (Mem.setWord (Mem.setWord h.mem _ _) _ _) _ = _
    rw [word_setWord_of_apart _ _ (by omega), word_setWord_of_apart _ _ (by omega)]
    rfl
  rw [hnext', hsize', hprev]
  rfl

/-- **A block that is split** gives way to what is left of it, unless it is the last of several. -/
theorem prMemallocSplit_eq (hf : FreeList h (xs ++ b :: ys)) (hsp : Spaced base limit (xs ++ b :: ys))
    (hbase : 0 < base) (hlimit : limit ≤ 2 ^ 32) (h12 : 12 ≤ size) (hsize : size + 12 ≤ b.size)
    (hok : last 0 (addrs xs) = 0 ∨ (addrs ys).headD 0 ≠ 0) :
    h.prMemallocSplit b.addr size =
      ((h.putHeader (b.addr + size) (last 0 (addrs xs)) ((addrs ys).headD 0)
        (b.size - size)).linkNext (last 0 (addrs xs)) (b.addr + size)).linkPrev
          ((addrs ys).headD 0) (b.addr + size) := by
  obtain ⟨-, -, hprev, hnext⟩ := hf.at_block
  have hlow := hsp.low b (by simp)
  have hhigh := hsp.high b (by simp)
  have hb := hf.size b (by simp)
  have hn : u32 (b.addr + size) = b.addr + size := Nat.mod_eq_of_lt (by omega)
  have hlast := hsp.last_apart
  have hhead : (addrs ys).headD 0 < 2 ^ 32 := by
    rcases headD_eq_zero_or_mem ys with hn | hn
    · omega
    · have := hsp.right.tail.addr_lt hn
      omega
  have hlt : last 0 (addrs xs) < 2 ^ 32 := by omega
  have hrest : b.size - size < 2 ^ 32 := by omega
  obtain ⟨hfp, hfn, -, hout⟩ := h.putHeader_spec (b.addr + size) hlt hhead hrest
  rw [QcHeap.prMemallocSplit]
  simp only [putHeader_of_block hf h12, hn]
  generalize h.putHeader (b.addr + size) (last 0 (addrs xs)) ((addrs ys).headD 0) (b.size - size) = put at hfp hfn hout
  have hfn' : (put.linkNext (last 0 (addrs xs)) (b.addr + size)).next (b.addr + size) = (addrs ys).headD 0 := by
    rw [QcHeap.next_linkNext _ (by omega), hfn]
  rw [hfp, hfn']
  by_cases hl : last 0 (addrs xs) = 0
  · have hb' : put.next b.addr = (addrs ys).headD 0 := by
      rw [← hnext]
      exact (QcHeap.header_congr fun x _ hx => hout x (.inl (by omega))).1
    rw [if_neg (not_not.2 hl), QcHeap.next_linkNext _ (.inl hl), hb']
    rfl
  · rw [if_pos hl, QcHeap.next_linkNext_self _ hl (by omega), if_pos (by omega),
      QcHeap.linkPrev_of_ne _ (hok.resolve_left hl)]

/-- A block put onto the list. -/
theorem prMemfreeInsert_eq (hsp : Spaced base limit (xs ++ c :: ys)) :
    h.prMemfreeInsert c.addr c.size (last 0 (addrs xs)) ((addrs ys).headD 0) =
      ((h.putHeader c.addr (last 0 (addrs xs)) ((addrs ys).headD 0) c.size).linkNext
        (last 0 (addrs xs)) c.addr).linkPrev ((addrs ys).headD 0) c.addr := by
  refine QcHeap.linkPrev_linkNext _ ?_
  rcases last_eq_zero_or_mem xs with hl | hl
  · exact .inl hl
  · rcases headD_eq_zero_or_mem ys with hn | hn
    · exact .inr (.inl hn)
    · obtain ⟨a, ha, hax⟩ := mem_map.1 hl
      obtain ⟨b, hb, hbx⟩ := mem_map.1 hn
      have hle := hsp.le ha (.tail c hb)
      have h12 := hsp.header a (mem_append_left _ ha)
      omega

theorem setSize_linkNext {s : ℕ} (hap : p = 0 ∨ a = p ∨ a + 12 ≤ p ∨ p + 12 ≤ a) :
    (h.setSize a s).linkNext p x = (h.linkNext p x).setSize a s := by
  by_cases hp : p = 0
  · subst hp
    rfl
  · rw [QcHeap.linkNext_of_ne _ hp, QcHeap.linkNext_of_ne _ hp, QcHeap.setNext, QcHeap.setNext,
      QcHeap.setSize, QcHeap.setSize]
    congr 1
    exact setWord_comm _ _ _ (by omega)

theorem setSize_linkPrev {s : ℕ} (hap : p = 0 ∨ a = p ∨ a + 12 ≤ p ∨ p + 12 ≤ a) :
    (h.setSize a s).linkPrev p x = (h.linkPrev p x).setSize a s := by
  by_cases hp : p = 0
  · subst hp
    rfl
  · rw [QcHeap.linkPrev_of_ne _ hp, QcHeap.linkPrev_of_ne _ hp, QcHeap.setPrev, QcHeap.setPrev,
      QcHeap.setSize, QcHeap.setSize]
    congr 1
    exact setWord_comm _ _ _ (by omega)

/-- A block of another size. -/
theorem FreeList.setSize {a : QcBlock} (hf : FreeList h (xs ++ a :: ys))
    (hsp : Spaced base limit (xs ++ a :: ys)) (hn : n < 2 ^ 32) :
    FreeList (h.setSize a.addr n) (xs ++ ⟨a.addr, n⟩ :: ys) := by
  have haddrs : addrs (xs ++ ⟨a.addr, n⟩ :: ys) = addrs (xs ++ a :: ys) := by
    rw [addrs_append, addrs_append, addrs_cons, addrs_cons]
  have hoff {b : ℕ} (hb : b ∈ addrs (xs ++ a :: ys)) :
      b = a.addr ∨ b + 12 ≤ a.addr ∨ a.addr + 12 ≤ b := by
    by_cases he : b = a.addr
    · exact .inl he
    · exact .inr (hsp.apart hb (by simp) he)
  refine ⟨?_, by rw [haddrs]; exact hf.head, fun b hb => ?_⟩
  · rw [haddrs]
    refine hf.chain.congr (fun b hb => ?_) fun b hb => ?_
    · exact word_setWord_of_apart _ _ (by have := hoff hb; omega)
    · exact word_setWord_of_apart _ _ (by have := hoff hb; omega)
  · by_cases hba : b = ⟨a.addr, n⟩
    · rw [hba]
      exact word_setWord_self _ _ hn
    · have hb' : b ∈ xs ++ ys := by
        simp only [mem_append, mem_cons] at hb ⊢
        tauto
      have hmem : b ∈ xs ++ a :: ys :=
        ((List.Sublist.refl xs).append (sublist_cons_self a ys)).subset hb'
      have hne : b.addr ≠ a.addr := by
        have hnd := hsp.nodup
        rw [addrs_append, addrs_cons, nodup_middle, nodup_cons, ← addrs_append] at hnd
        exact fun e => hnd.1 (e ▸ mem_map_of_mem hb')
      rw [← hf.size b hmem]
      have := hoff (mem_map_of_mem hmem)
      exact word_setWord_of_apart _ _ (by omega)

/-- The size of a block may be written after its successor has been taken off the list. -/
theorem setSize_pfFmemUnlink {a : QcBlock} (hf : FreeList h (xs ++ a :: b :: ys))
    (hsp : Spaced base limit (xs ++ a :: b :: ys)) :
    (h.setSize a.addr n).pfFmemUnlink b.addr = (h.pfFmemUnlink b.addr).setSize a.addr n := by
  have hsplit : xs ++ a :: b :: ys = (xs ++ [a]) ++ b :: ys := by
    rw [append_assoc, singleton_append]
  rw [hsplit] at hf hsp
  have hab : a.addr + 12 ≤ b.addr := by
    have hle := hsp.le (a := a) (by simp) (.head _)
    have h12 := hsp.header a (by simp)
    omega
  obtain ⟨-, -, hprev, hnext⟩ := hf.at_block
  rw [last_concat] at hprev
  have hprev' : (h.setSize a.addr n).prev b.addr = a.addr := by
    rw [← hprev]
    exact word_setWord_of_apart _ _ (by omega)
  have hnext' : (h.setSize a.addr n).next b.addr = (addrs ys).headD 0 := by
    rw [← hnext]
    exact word_setWord_of_apart _ _ (by omega)
  have hn : (addrs ys).headD 0 = 0 ∨ a.addr = (addrs ys).headD 0 ∨
      a.addr + 12 ≤ (addrs ys).headD 0 ∨ (addrs ys).headD 0 + 12 ≤ a.addr := by
    rcases headD_eq_zero_or_mem ys with hn | hn
    · exact .inl hn
    · obtain ⟨c, hc, hcy⟩ := mem_map.1 hn
      have hle := hsp.le (a := a) (by simp) (.tail b hc)
      have h12 := hsp.header a (by simp)
      omega
  rw [pfFmemUnlink_of_links hprev' hnext' (by omega), pfFmemUnlink_of_links hprev hnext (by omega),
    setSize_linkNext (.inr (.inl rfl)), setSize_linkPrev hn]

/-- **Two neighbours are merged** into a block of size `n`. -/
theorem FreeList.merge {a : QcBlock} (hf : FreeList h (xs ++ a :: b :: ys))
    (hsp : Spaced base limit (xs ++ a :: b :: ys)) (hbase : 0 < base) (hlimit : limit ≤ 2 ^ 32) (hn : n < 2 ^ 32) :
    FreeList ((h.setSize a.addr n).pfFmemUnlink b.addr) (xs ++ ⟨a.addr, n⟩ :: ys) := by
  rw [setSize_pfFmemUnlink hf hsp]
  have hsplit : xs ++ a :: b :: ys = (xs ++ [a]) ++ b :: ys := by
    rw [append_assoc, singleton_append]
  have hsub : (xs ++ a :: ys).Sublist (xs ++ a :: b :: ys) :=
    (List.Sublist.refl xs).append ((sublist_cons_self b ys).cons_cons a)
  have hunlink : FreeList (h.pfFmemUnlink b.addr) (xs ++ a :: ys) := by
    rw [hsplit] at hf hsp
    have := hf.unlink hsp hbase hlimit
    rwa [append_assoc, singleton_append] at this
  exact hunlink.setSize (hsp.sublist hsub) hn

theorem mem_merge {a : QcBlock} (hf : FreeList h (xs ++ a :: b :: ys))
    (hsp : Spaced base limit (xs ++ a :: b :: ys)) (hx : x ∉ headers (xs ++ a :: b :: ys)) :
    ((h.setSize a.addr n).pfFmemUnlink b.addr).mem x = h.mem x := by
  rw [setSize_pfFmemUnlink hf hsp]
  have hsplit : xs ++ a :: b :: ys = (xs ++ [a]) ++ b :: ys := by
    rw [append_assoc, singleton_append]
  have ha : x < a.addr ∨ a.addr + 12 ≤ x := by
    by_contra ha
    exact hx ⟨a, by simp, by omega, by omega⟩
  have hsub {l : List QcBlock} (hl : ∀ c ∈ l, c ∈ (xs ++ [a]) ++ b :: ys) : x ∉ headers l := by
    rintro ⟨c, hc, hcx⟩
    exact hx ⟨c, by rw [hsplit]; exact hl c hc, hcx⟩
  change Mem.setWord (h.pfFmemUnlink b.addr).mem _ _ x = _
  rw [setWord_apply_of_out _ _ (by omega)]
  rw [hsplit] at hf hsp
  rw [pfFmemUnlink_eq hf hsp]
  exact mem_link (hsub fun c hc => mem_append_left _ hc)
    (hsub fun c hc => mem_append_right _ (.tail b hc))

/-! ## Walks along the list -/

/-- A block of a list in order passes the tests of both walks. -/
theorem not_suspect {b : QcBlock} {l : ℕ} (hc : Chain h.next h.prev l (addrs (b :: ys)) 0)
    (hsize : h.size b.addr = b.size) (hsp : Spaced base h.addressableused (b :: ys)) (hbase : 0 < base)
    (hlimit : h.addressableused ≤ 2 ^ 32) (hl : l < b.addr) :
    0 < b.addr ∧ b.addr + 12 < h.addressableused ∧ ¬h.Suspect b.addr l ∧ h.next b.addr = (addrs ys).headD 0 ∧
      Chain h.next h.prev b.addr (addrs ys) 0 ∧ ∀ c ∈ ys, b.addr < c.addr := by
  obtain ⟨hprev, hnext, hc⟩ := hc
  change h.next b.addr = (addrs ys).headD 0 at hnext
  have hlow := hsp.low b (.head _)
  have hhigh := hsp.high b (.head _)
  have h12 := hsp.header b (.head _)
  have hend : u32 (b.addr + b.size) = b.addr + b.size := Nat.mod_eq_of_lt (by omega)
  have hbys : ∀ c ∈ ys, b.addr + b.size ≤ c.addr := (pairwise_cons.1 hsp.ascending).1
  refine ⟨hbase.trans_le hlow, by omega, ?_, hnext, hc, fun c hc => (Nat.lt_add_of_pos_right (by omega)).trans_le (hbys c hc)⟩
  unfold QcHeap.Suspect
  rw [hprev, hnext, hsize, hend]
  cases ys with
  | nil =>
    simp only [addrs_nil, headD_nil]
    omega
  | cons c ys =>
    have hcb := hbys c (.head _)
    have hch := hsp.high c (.tail b (.head _))
    simp only [addrs_cons, headD_cons]
    omega

theorem prMemvalidateLoop_eq {l : ℕ} (hc : Chain h.next h.prev l (addrs ys) 0)
    (hsize : ∀ b ∈ ys, h.size b.addr = b.size) (hsp : Spaced base h.addressableused ys) (hbase : 0 < base)
    (hlimit : h.addressableused ≤ 2 ^ 32) (hl : ∀ b ∈ ys, l < b.addr) (hfuel : ys.length < fuel) :
    h.prMemvalidateLoop fuel ((addrs ys).headD 0) l = some true := by
  induction ys generalizing l fuel with
  | nil =>
    obtain ⟨fuel, rfl⟩ : ∃ k, fuel = k + 1 := ⟨fuel - 1, by omega⟩
    rfl
  | cons b ys ih =>
    obtain ⟨fuel, rfl⟩ : ∃ k, fuel = k + 1 := ⟨fuel - 1, by omega⟩
    obtain ⟨hpos, hin, hok, hnext, hc, hrest⟩ := not_suspect hc (hsize b (.head _)) hsp hbase hlimit (hl b (.head _))
    rw [addrs_cons, headD_cons, QcHeap.prMemvalidateLoop, if_neg (by omega),
      if_neg (by rw [not_or]; exact ⟨by omega, hok⟩), hnext]
    exact ih hc (fun c hc => hsize c (.tail b hc)) hsp.tail hrest (Nat.lt_of_succ_lt_succ hfuel)

/-- `PR_memvalidate` finds a list in order. -/
theorem FreeList.validate (hf : FreeList h free) (hsp : Spaced base h.addressableused free)
    (hbase : 0 < base) (hlimit : h.addressableused ≤ 2 ^ 32) : h.prMemvalidate = some true := by
  have hlen := hsp.length_le
  rw [QcHeap.prMemvalidate, hf.head]
  refine prMemvalidateLoop_eq hf.chain hf.size hsp hbase hlimit (fun b hb => ?_) (by omega)
  have := hsp.low b hb
  omega

theorem prMemallocFind_eq (hc : Chain h.next h.prev p (addrs ys) 0) (hsize : ∀ b ∈ ys, h.size b.addr = b.size)
    (hsp : Spaced base h.addressableused ys) (hbase : 0 < base) (hlimit : h.addressableused ≤ 2 ^ 32)
    (hp : ∀ b ∈ ys, p < b.addr) (hfuel : ys.length < fuel) :
    h.prMemallocFind size fuel ((addrs ys).headD 0) = some .nothing ∨
      ∃ xs b zs, ys = xs ++ b :: zs ∧ size ≤ b.size ∧
        h.prMemallocFind size fuel ((addrs ys).headD 0) = some (.block b.addr) := by
  induction ys generalizing p fuel with
  | nil =>
    obtain ⟨fuel, rfl⟩ : ∃ k, fuel = k + 1 := ⟨fuel - 1, by omega⟩
    exact .inl rfl
  | cons b ys ih =>
    obtain ⟨fuel, rfl⟩ : ∃ k, fuel = k + 1 := ⟨fuel - 1, by omega⟩
    have hb := hsize b (.head _)
    obtain ⟨hpos, hin, hok, hnext, hc, hrest⟩ := not_suspect hc hb hsp hbase hlimit (hp b (.head _))
    rw [addrs_cons, headD_cons, QcHeap.prMemallocFind, if_neg (by omega), if_neg (by omega)]
    by_cases hfit : size ≤ h.size b.addr
    · rw [if_pos hfit, if_neg (hok ∘ .inr)]
      exact .inr ⟨[], b, ys, rfl, by omega, rfl⟩
    · rw [if_neg hfit, hnext]
      rcases ih hc (fun c hc => hsize c (.tail b hc)) hsp.tail hrest (Nat.lt_of_succ_lt_succ hfuel) with
        hno | ⟨xs, c, zs, rfl, hfit, hc⟩
      · exact .inl hno
      · exact .inr ⟨b :: xs, c, zs, rfl, hfit, hc⟩

/-- The search of `PR_memalloc` ends with a block of the list that is large enough, or with none. -/
theorem FreeList.find (hf : FreeList h free) (hsp : Spaced base h.addressableused free)
    (hbase : 0 < base) (hlimit : h.addressableused ≤ 2 ^ 32) (size : ℕ) :
    h.prMemallocFind size (h.addressableused + 1) h.mfreelist = some .nothing ∨
      ∃ xs b ys, free = xs ++ b :: ys ∧ size ≤ b.size ∧
        h.prMemallocFind size (h.addressableused + 1) h.mfreelist = some (.block b.addr) := by
  have hlen := hsp.length_le
  rw [hf.head]
  refine prMemallocFind_eq hf.chain hf.size hsp hbase hlimit (fun b hb => ?_) (by omega)
  have := hsp.low b hb
  omega

theorem prMemfreeFind_eq (xs : List QcBlock) {ptr : ℕ} (hc : Chain h.next h.prev (last 0 (addrs xs)) (addrs ys) 0)
    (hsp : Spaced base h.addressableused (xs ++ ys)) (hbase : 0 < base) (hptr : ptr < h.addressableused)
    (hxs : ∀ b ∈ xs, b.addr < ptr) (hfuel : ys.length < fuel) :
    ∃ us vs, xs ++ ys = us ++ vs ∧ (∀ b ∈ us, b.addr < ptr) ∧ (∀ b ∈ vs, ptr ≤ b.addr) ∧
      h.prMemfreeFind ptr fuel (last 0 (addrs xs)) ((addrs ys).headD 0) =
        some (some (last 0 (addrs us), (addrs vs).headD 0)) := by
  induction ys generalizing xs fuel with
  | nil =>
    obtain ⟨fuel, rfl⟩ : ∃ k, fuel = k + 1 := ⟨fuel - 1, by omega⟩
    refine ⟨xs, [], rfl, hxs, fun b hb => absurd hb (not_mem_nil), ?_⟩
    rw [addrs_nil, headD_nil, QcHeap.prMemfreeFind, if_neg (by omega), if_pos (.inl rfl)]
  | cons b ys ih =>
    obtain ⟨fuel, rfl⟩ : ∃ k, fuel = k + 1 := ⟨fuel - 1, by omega⟩
    obtain ⟨-, hnext, hc⟩ := hc
    change h.next b.addr = (addrs ys).headD 0 at hnext
    have hlow := hsp.right.low b (.head _)
    have hhigh := hsp.right.high b (.head _)
    have h12 := hsp.right.header b (.head _)
    rw [addrs_cons, headD_cons, QcHeap.prMemfreeFind, if_neg (by omega)]
    by_cases hb : ptr ≤ b.addr
    · refine ⟨xs, b :: ys, rfl, hxs, fun c hc => ?_, by rw [if_pos (.inr hb)]; rfl⟩
      rcases mem_cons.1 hc with rfl | hc
      · exact hb
      · have := (pairwise_cons.1 hsp.right.ascending).1 c hc
        omega
    · rw [if_neg (by omega), hnext]
      have hsplit : xs ++ b :: ys = xs ++ [b] ++ ys := by
        rw [append_assoc, singleton_append]
      rw [← last_concat 0 xs b] at hc ⊢
      rw [hsplit] at hsp ⊢
      refine ih _ hc hsp (fun c hc => ?_) (by rw [length_cons] at hfuel; omega)
      rcases mem_append.1 hc with hc | hc
      · exact hxs c hc
      · rw [mem_singleton.1 hc]
        omega

/-- The search of `PR_memfree` ends where the offset belongs. -/
theorem FreeList.findPlace (ptr : ℕ) (hf : FreeList h free)
    (hsp : Spaced base h.addressableused free) (hbase : 0 < base) (hptr : ptr < h.addressableused) :
    ∃ xs ys, free = xs ++ ys ∧ (∀ b ∈ xs, b.addr < ptr) ∧ (∀ b ∈ ys, ptr ≤ b.addr) ∧
      h.prMemfreeFind ptr (h.addressableused + 1) 0 h.mfreelist =
        some (some (last 0 (addrs xs), (addrs ys).headD 0)) := by
  have hlen := hsp.length_le
  rw [hf.head]
  exact prMemfreeFind_eq [] hf.chain hsp hbase hptr (fun b hb => absurd hb not_mem_nil) (by omega)

end List

end FteQuake
