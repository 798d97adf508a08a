import FteQuake.Qclib.HeapRun

/-!
# Calls of the QuakeC heap

`QcCall` is a call of `PR_memalloc`, `PR_memfree` or `PR_memrealloc`, and `QcHeap.Run` any sequence
of them, with what the owners of blocks write in between. `qcHeap_run` says what holds of every run
whose calls are safe, and `qcHeap_split_last` what an unsafe one does to the empty string at
offset 0.
-/

namespace FteQuake

open List Option

namespace QcHeap

variable {base : ℕ} {h h' : QcHeap} {free free' : List QcBlock} {live live' us vs : List QcLive}

/-! ## Writing to blocks in use -/

/-- Bytes behind the header of a block in use may be anything. -/
theorem Good.write {c : QcLive} {mem : Mem QByte} (hg : Good base h free live) (hc : c ∈ live)
    (hsame : ∀ x, x < c.addr + 8 ∨ c.addr + c.size ≤ x → mem x = h.mem x) :
    Good base { h with mem } free live := by
  have hlist : FreeList { h with mem } free := by
    refine hg.list.of_headers (fun x hx => hsame x ?_) rfl
    by_contra hout
    exact not_mem_headers hg.layout hc (by omega) (by omega) hx
  refine ⟨hlist, hg.layout, fun d hd => ?_, hg.base_le, hg.used_lt, hg.size_le⟩
  have hd12 := (hg.layout.room d hd).2
  have hc12 := (hg.layout.room c hc).2
  have hdc : d = c ∨ Apart d.addr d.size c.addr c.size := by
    have : Std.Symm fun a b : QcLive => Apart a.addr a.size b.addr b.size := ⟨fun _ _ => Or.symm⟩
    by_cases hne : d = c
    · exact .inl hne
    · exact .inr (hg.layout.disjoint.forall hd hc hne)
  have hsame' : ∀ x, d.addr ≤ x → x < d.addr + 8 → mem x = h.mem x := by
    intro x hx hx'
    refine hsame x ?_
    rcases hdc with rfl | hdc
    · exact .inl hx'
    · unfold Apart at hdc
      omega
  obtain ⟨hm, hs⟩ := marker_congr h { h with mem } d.addr hsame'
  rw [hm, hs]
  exact hg.marked d hd

/-! ## Reallocation -/

/-- What a call changes: bytes of headers of free blocks, and those of some blocks. -/
def FrameOf (h h' : QcHeap) (free free' : List QcBlock) (moved : List QcLive) : Prop :=
  ∀ x < h.addressableused, x ∉ headers free → x ∉ headers free' →
    (∀ c ∈ moved, x < c.addr ∨ c.addr + c.size ≤ x) → h'.mem x = h.mem x

/-- The copy stays in the new block. -/
theorem mem_copy {p n m x : ℕ} {mem : Mem QByte} (src : ℕ) (hn : n ≤ m) (hx : x < p ∨ p + m ≤ x) :
    ((mem.blit p (mem.slice src n)).fill (p + n) (m - n) 0) x = mem x := by
  rw [Mem.fill_apply_of_out _ _ (by omega)]
  rcases hx with hx | hx
  · exact Mem.blit_apply_lt _ _ hx
  · exact Mem.blit_apply_ge _ _ (by rw [Mem.length_slice]; omega)

/-- The contents move to the new block `d`, and `c` is freed. -/
theorem prMemreallocTo_spec {c d : QcLive} {n : ℕ}
    (hg : Good base h free (d :: (us ++ c :: vs))) (hd : n + 8 ≤ d.size) :
    ∃ h' free', h.prMemreallocTo (c.addr + 8) (c.size - 8) n (d.addr + 8) = some (d.addr + 8, h') ∧
      Good base h' free' (d :: (us ++ vs)) ∧ h'.addressableused = h.addressableused ∧
      FrameOf h h' free free' [c, d] ∧ ∀ a ∈ addrs free, a ∈ addrs free' ∨ a = c.addr + c.size := by
  have hin := hg.layout.inside d (.head _)
  have hlt := hg.used_lt
  let k := min (c.size - 8) n
  let h₁ : QcHeap := { h with mem := h.mem.blit (d.addr + 8) (h.mem.slice (c.addr + 8) k) }
  let h₂ : QcHeap := { h₁ with mem := h₁.mem.fill (d.addr + 8 + k) (n - k) 0 }
  have hk : k ≤ n := Nat.min_le_right _ _
  have hsame : ∀ x, x < d.addr + 8 ∨ d.addr + d.size ≤ x → h₂.mem x = h.mem x :=
    fun x hx => mem_copy _ hk (by omega)
  have hg₂ : Good base h₂ free ((d :: us) ++ c :: vs) := hg.write (.head _) hsame
  obtain ⟨h₃, free', hfree, hgood, hused, hframe, hkept⟩ := prMemfree_spec hg₂
  refine ⟨h₃, free', ?_, hgood, hused, fun x hx hx₁ hx₂ hmoved => ?_, hkept⟩
  · have hclear : h₁.clear (d.addr + 8 + k) (n - k) = some h₂ := clear_eq (by
      change _ ≤ h.addressablesize
      omega)
    rw [prMemreallocTo, if_neg (by omega)]
    change ((h₁.clear (d.addr + 8 + k) (n - k)).bind fun h =>
      (h.prMemfree (c.addr + 8)).bind fun h => some (d.addr + 8, h)) = _
    rw [hclear, bind_some, hfree, bind_some]
  · have hxc := hmoved c (by simp)
    have hxd := hmoved d (by simp)
    rw [hframe x hx hx₁ hx₂ hxc, hsame x (by omega)]

/-- **`PR_memrealloc`** moves a block in use. -/
theorem prMemrealloc_spec {c : QcLive} {p n : ℕ} (hg : Good base h free (us ++ c :: vs))
    (hn : n < 2 ^ 31) (hsafe : h.SafeAlloc n) (hr : h.prMemrealloc (c.addr + 8) n = some (p, h')) :
    ∃ d free', p = d.addr + 8 ∧ d.request = n ∧ d ∉ us ++ c :: vs ∧
      Good base h' free' (d :: (us ++ vs)) ∧ h.addressableused ≤ h'.addressableused ∧
      FrameOf h h' free free' [c, d] := by
  have hmem : c ∈ us ++ c :: vs := by simp
  obtain ⟨hhead, hlt, hmarked⟩ := hg.isMarked hmem
  have hok : ¬(h.addressableused ≤ headerOf (c.addr + 8) ∨ ¬h.Marked (c.addr + 8)) := by
    rw [hhead, not_or, not_not]
    exact ⟨Nat.not_le.2 hlt, hmarked⟩
  rw [prMemrealloc, if_neg (Nat.succ_ne_zero _), hg.validate, bind_eq_bind, bind_some,
    if_neg hok, hhead, (hg.marked c hmem).2] at hr
  obtain ⟨⟨q, h₁⟩, halloc, hr⟩ := bind_eq_some_iff.1 hr
  obtain ⟨d, free₁, rfl, hdn, hg₁, hle, hframe, hkept⟩ := prMemalloc_spec hg hn hsafe halloc
  have hroom := (hg₁.layout.room d (.head _)).1
  have hd12 := (hg₁.layout.room d (.head _)).2
  have hapart := (pairwise_cons.1 hg₁.layout.disjoint).1
  obtain ⟨h₂, free', hto, hg₂, hused, hframe', hkept'⟩ :=
    prMemreallocTo_spec (n := n) hg₁ (hdn ▸ hroom)
  change h₁.prMemreallocTo (c.addr + 8) (c.size - 8) n (d.addr + 8) = some (p, h') at hr
  rw [hto] at hr
  obtain ⟨rfl, rfl⟩ := Prod.mk.inj (some.inj hr)
  refine ⟨d, free', rfl, hdn, fun hd => ?_, hg₂, hused ▸ hle, fun x hx hx₁ hx₂ hmoved => ?_⟩
  · have := hapart d hd
    unfold Apart at this
    omega
  · -- a header that only the list in between has is that of what was left of a split block
    have hxc := hmoved c (by simp)
    have hxd := hmoved d (by simp)
    have hx₃ : x ∉ headers free₁ := by
      rintro ⟨b, hb, hbx, hbx'⟩
      have hmid : b.addr ∉ addrs free := by
        intro hmem
        obtain ⟨b', hb', he⟩ := mem_map.1 hmem
        exact hx₁ ⟨b', hb', by omega, by omega⟩
      have hend : b.addr ∉ addrs free' := by
        intro hmem
        obtain ⟨b', hb', he⟩ := mem_map.1 hmem
        exact hx₂ ⟨b', hb', by omega, by omega⟩
      have hbd := (hkept b.addr (mem_map_of_mem hb)).resolve_left hmid
      have hbc := (hkept' b.addr (mem_map_of_mem hb)).resolve_left hend
      have hdc := hapart c hmem
      have hc12 := (hg.layout.room c hmem).2
      unfold Apart at hdc
      omega
    rw [hframe' x (by omega) hx₃ hx₂ hmoved, hframe x hx hx₁ hx₃ hxd]

end QcHeap

/-! ## Calls -/

/-- A call of the heap. -/
inductive QcCall
  | alloc (size : ℕ)
  | free (ptr : ℕ)
  | realloc (ptr size : ℕ)

/-- The blocks in use that the pointer does not point at. -/
def without (ptr : ℕ) (live : List QcLive) : List QcLive :=
  live.filter fun c => c.addr + 8 ≠ ptr

namespace QcHeap

/-- The blocks in use after one was returned at `p` for `n` bytes. -/
def register (h : QcHeap) (p n : ℕ) (live : List QcLive) : List QcLive :=
  ⟨p - 8, h.usedSize (p - 8), n⟩ :: live

/-- Null, the pointer of a block in use, or one whose header lacks the marker. -/
def Freeable (h : QcHeap) (live : List QcLive) (ptr : ℕ) : Prop :=
  ptr = 0 ∨ (∃ c ∈ live, ptr = c.addr + 8) ∨ ¬h.Carries ptr

/-- A block that the list leads to. -/
inductive OnFreeList (h : QcHeap) : ℕ → Prop
  | head (hne : h.mfreelist ≠ 0) : OnFreeList h h.mfreelist
  | next {b : ℕ} (hb : OnFreeList h b) (hne : h.next b ≠ 0) : OnFreeList h (h.next b)

instance (h : QcHeap) (ptr : ℕ) : Decidable (h.Carries ptr) := inferInstanceAs (Decidable (_ ∧ _))

instance (h : QcHeap) (live : List QcLive) (ptr : ℕ) : Decidable (h.Freeable live ptr) :=
  inferInstanceAs (Decidable (_ ∨ _ ∨ _))

/-- What a call may change: headers of blocks on the list, and the blocks that it returns or
frees. -/
def CallFrame (h h' : QcHeap) (live live' : List QcLive) : Prop :=
  ∀ x < h.addressableused, h'.mem x ≠ h.mem x →
    (∃ b, (h.OnFreeList b ∨ h'.OnFreeList b) ∧ b ≤ x ∧ x < b + 12) ∨
      ∃ c, (c ∈ live ∧ c ∉ live' ∨ c ∈ live' ∧ c ∉ live) ∧ c.addr ≤ x ∧ x < c.addr + c.size

/-- A hunk with no block in it yet. -/
structure Start (h : QcHeap) : Prop where
  mfreelist_eq : h.mfreelist = 0
  used_pos : 0 < h.addressableused
  used_lt : h.addressableused < h.addressablesize
  size_le : h.addressablesize ≤ 2 ^ 31

end QcHeap

namespace QcCall

open QcHeap

/-- What a caller may ask for. -/
def Legal (h : QcHeap) (live : List QcLive) : QcCall → Prop
  | alloc n => n < 2 ^ 31
  | free ptr => h.Freeable live ptr
  | realloc ptr n => n < 2 ^ 31 ∧ h.Freeable live ptr

instance (h : QcHeap) (live : List QcLive) (op : QcCall) : Decidable (op.Legal h live) :=
  match op with
  | alloc _ => inferInstanceAs (Decidable (_ < _))
  | free _ => inferInstanceAs (Decidable (Freeable _ _ _))
  | realloc _ _ => inferInstanceAs (Decidable (_ ∧ _))

/-- The condition on the heap before the call. -/
def Safe (h : QcHeap) : QcCall → Prop
  | alloc n => h.SafeAlloc n
  | free _ => True
  | realloc ptr n => ptr = 0 ∨ h.Carries ptr → h.SafeAlloc n

/-- The heap and the blocks in use after the call. -/
def exec (h : QcHeap) (live : List QcLive) : QcCall → Option (QcHeap × List QcLive)
  | alloc n => do
    let (p, h) ← h.prMemalloc n
    return (h, if p = 0 then live else h.register p n live)
  | free ptr => do
    let h ← h.prMemfree ptr
    return (h, without ptr live)
  | realloc ptr n => do
    let (p, h) ← h.prMemrealloc ptr n
    return (h, if p = 0 then live else h.register p n (without ptr live))

end QcCall

/-- The heaps that calls under the condition `C` lead to, and the blocks that are in use there.
Between calls the owner of a block writes what it wants behind the header. -/
inductive QcHeap.Run (C : QcHeap → QcCall → Prop) (h₀ : QcHeap) : QcHeap → List QcLive → Prop
  | start : Run C h₀ h₀ []
  | call {h h' : QcHeap} {live live' : List QcLive} (op : QcCall) (hr : Run C h₀ h live)
      (hlegal : op.Legal h live) (hop : C h op) (hexec : op.exec h live = some (h', live')) :
      Run C h₀ h' live'
  | write {h : QcHeap} {live : List QcLive} (c : QcLive) (i : ℕ) (bytes : List QByte)
      (hr : Run C h₀ h live) (hc : c ∈ live) (hfit : i + bytes.length + 8 ≤ c.size) :
      Run C h₀ { h with mem := h.mem.blit (c.addr + 8 + i) bytes } live

namespace QcHeap

variable {base : ℕ} {h h' h₀ : QcHeap} {free free' : List QcBlock} {live live' us vs : List QcLive}

/-- Blocks of the list are on it. -/
theorem onFreeList_of_chain {p : ℕ} {xs : List ℕ} (hc : Chain h.next h.prev p xs 0)
    (hne : ∀ a ∈ xs, a ≠ 0) (hhead : xs ≠ [] → h.OnFreeList (xs.headD 0)) :
    ∀ a ∈ xs, h.OnFreeList a := by
  induction xs generalizing p with
  | nil => exact fun a ha => absurd ha not_mem_nil
  | cons b xs ih =>
    obtain ⟨-, hnext, hc⟩ := hc
    have hb : h.OnFreeList b := hhead (cons_ne_nil b xs)
    intro a ha
    rcases mem_cons.1 ha with rfl | ha
    · exact hb
    · refine ih hc (fun c hc => hne c (.tail b hc)) (fun hxs => ?_) a ha
      rw [← hnext]
      refine hb.next ?_
      rw [hnext]
      cases xs with
      | nil => exact absurd rfl hxs
      | cons c xs => exact hne c (by simp)

theorem Good.onFreeList (hg : Good base h free live) {b : QcBlock} (hb : b ∈ free) :
    h.OnFreeList b.addr := by
  have hne : ∀ a ∈ addrs free, a ≠ 0 := fun a ha => hg.layout.spaced.pos hg.layout.base_pos ha
  refine onFreeList_of_chain hg.list.chain hne (fun hxs => ?_) b.addr (mem_map_of_mem hb)
  rw [← hg.list.head]
  refine .head ?_
  rw [hg.list.head]
  rcases headD_eq_zero_or_mem free with h0 | hmem
  · cases free with
    | nil => exact absurd rfl hxs
    | cons b free => exact absurd h0 (hne b.addr (by simp))
  · exact hne _ hmem

/-- The bytes that a frame lets change. -/
theorem Good.callFrame {moved : List QcLive} (hg : Good base h free live) (hg' : Good base h' free' live')
    (hf : FrameOf h h' free free' moved) (hmoved : ∀ c ∈ moved, c ∈ live ∧ c ∉ live' ∨ c ∈ live' ∧ c ∉ live) :
    CallFrame h h' live live' := by
  intro x hx hne
  by_contra hcon
  rw [not_or] at hcon
  refine hne (hf x hx ?_ ?_ fun c hc => ?_)
  · rintro ⟨b, hb, hbx⟩
    exact hcon.1 ⟨b.addr, .inl (hg.onFreeList hb), hbx⟩
  · rintro ⟨b, hb, hbx⟩
    exact hcon.1 ⟨b.addr, .inr (hg'.onFreeList hb), hbx⟩
  · by_contra hout
    exact hcon.2 ⟨c, hmoved c hc, by omega, by omega⟩

/-- Bytes below the heap do not change. -/
theorem Good.below {moved : List QcLive} (hg : Good base h free live)
    (hg' : Good base h' free' live') (hf : FrameOf h h' free free' moved)
    (hmoved : ∀ c ∈ moved, c ∈ live ∧ c ∉ live' ∨ c ∈ live' ∧ c ∉ live) {x : ℕ} (hx : x < base) :
    h'.mem x = h.mem x := by
  refine hf x (hx.trans_le hg.base_le) ?_ ?_ fun c hc => .inl ?_
  · rintro ⟨b, hb, hbx, -⟩
    have := (hg.layout.within b hb).1
    omega
  · rintro ⟨b, hb, hbx, -⟩
    have := (hg'.layout.within b hb).1
    omega
  · rcases hmoved c hc with ⟨hc, -⟩ | ⟨hc, -⟩
    · exact hx.trans_le (hg.layout.inside c hc).1
    · exact hx.trans_le (hg'.layout.inside c hc).1

/-- A new block is none of those in use. -/
theorem Layout.not_mem_cons {used : ℕ} {c : QcLive} (hl : Layout base used free (c :: live)) :
    c ∉ live := by
  intro hc
  have hcc := (pairwise_cons.1 hl.disjoint).1 c hc
  have h12 := (hl.room c (.head _)).2
  unfold Apart at hcc
  omega

/-- Taking one block away. -/
theorem Layout.without_eq {used : ℕ} {c : QcLive} (hl : Layout base used free live) (hc : c ∈ live) :
    ∃ us vs, live = us ++ c :: vs ∧ without (c.addr + 8) live = us ++ vs ∧ c ∉ us ++ vs := by
  obtain ⟨us, vs, rfl⟩ := append_of_mem hc
  have haround := hl.around_live.1
  have h12 := (hl.room c hc).2
  have hne : ∀ d ∈ us ++ vs, d.addr + 8 ≠ c.addr + 8 := fun d hd he => by
    have hdc := haround d hd
    have hd12 := (hl.room d (Layout.middle.subset hd)).2
    unfold Apart at hdc
    omega
  refine ⟨us, vs, rfl, ?_, fun hmem => hne c hmem rfl⟩
  have hkeep : ∀ l : List QcLive, (∀ d ∈ l, d ∈ us ++ vs) → without (c.addr + 8) l = l :=
    fun l hl => filter_eq_self.2 fun d hd => by simpa using hne d (hl d hd)
  have hus := hkeep us fun d hd => mem_append_left _ hd
  have hvs := hkeep vs fun d hd => mem_append_right _ hd
  unfold without at hus hvs ⊢
  rw [filter_append, filter_cons, if_neg (by simp), hus, hvs]

/-- A pointer that no block in use has. -/
theorem Good.without_eq_self {ptr : ℕ} (hg : Good base h free live)
    (hptr : ptr = 0 ∨ ¬h.Carries ptr) : without ptr live = live := by
  refine filter_eq_self.2 fun c hc => ?_
  rw [decide_eq_true_iff]
  rintro rfl
  rcases hptr with hptr | hptr
  · omega
  · obtain ⟨hhead, hlt, -⟩ := hg.isMarked hc
    refine hptr ⟨by rwa [hhead], ?_⟩
    rw [hhead]
    exact (hg.marked c hc).1

/-- The block that was returned. -/
theorem Good.register_eq {c : QcLive} (hg : Good base h free (c :: live)) :
    h.register (c.addr + 8) c.request live = c :: live := by
  have hsize := (hg.marked c (.head _)).2
  rw [register, Nat.add_sub_cancel, hsize]

end QcHeap

/-! ## Runs -/

open QcHeap

/-- **One call**: the heap stays good, and what changes is a header of a free block, or the block
that is returned or freed. -/
theorem QcCall.exec_spec {base : ℕ} {h h' : QcHeap} {free : List QcBlock} {live live' : List QcLive}
    (op : QcCall) (hg : Good base h free live) (hlegal : op.Legal h live) (hsafe : op.Safe h)
    (hexec : op.exec h live = some (h', live')) :
    ∃ free' moved, Good base h' free' live' ∧ h.addressableused ≤ h'.addressableused ∧
      FrameOf h h' free free' moved ∧
      ∀ c ∈ moved, c ∈ live ∧ c ∉ live' ∨ c ∈ live' ∧ c ∉ live := by
  have hsame : ∃ free' moved, Good base h free' live ∧ h.addressableused ≤ h.addressableused ∧
      FrameOf h h free free' moved ∧
      ∀ c ∈ moved, c ∈ live ∧ c ∉ live ∨ c ∈ live ∧ c ∉ live :=
    ⟨free, [], hg, le_rfl, fun _ _ _ _ _ => rfl, fun c hc => absurd hc not_mem_nil⟩
  have halloc {n p : ℕ} {k : QcHeap} (hn : n < 2 ^ 31) (hs : h.SafeAlloc n)
      (hr : h.prMemalloc n = some (p, k)) :
      p ≠ 0 ∧ ∃ free' moved, Good base k free' (k.register p n live) ∧
        h.addressableused ≤ k.addressableused ∧ FrameOf h k free free' moved ∧
        ∀ c ∈ moved, c ∈ live ∧ c ∉ k.register p n live ∨ c ∈ k.register p n live ∧ c ∉ live := by
    obtain ⟨c, free', rfl, rfl, hg', hle, hframe, -⟩ := prMemalloc_spec hg hn hs hr
    rw [hg'.register_eq]
    refine ⟨by omega, free', [c], hg', hle, fun x hx h₁ h₂ hc => hframe x hx h₁ h₂ (hc c (by simp)),
      fun d hd => .inr ?_⟩
    rw [mem_singleton.1 hd]
    exact ⟨mem_cons_self .., Layout.not_mem_cons hg'.layout⟩
  cases op with
  | alloc n =>
    obtain ⟨⟨p, k⟩, hr, hk⟩ := bind_eq_some_iff.1 hexec
    obtain ⟨hp, hall⟩ := halloc hlegal hsafe hr
    obtain ⟨rfl, rfl⟩ := Prod.mk.inj (some.inj hk)
    rwa [if_neg hp]
  | free ptr =>
    obtain ⟨k, hr, hk⟩ := bind_eq_some_iff.1 hexec
    obtain ⟨rfl, rfl⟩ := Prod.mk.inj (some.inj hk)
    rcases hlegal with h0 | ⟨c, hc, rfl⟩ | hno
    · rw [hg.without_eq_self (.inl h0)]
      rw [h0, prMemfree, if_pos rfl, Option.some.injEq] at hr
      rwa [← hr]
    · obtain ⟨us, vs, rfl, hwithout, hcuv⟩ := Layout.without_eq hg.layout hc
      rw [hwithout]
      obtain ⟨k', free', hfree, hg', hused, hframe, -⟩ := prMemfree_spec hg
      obtain rfl : k' = k := some.inj (hfree.symm.trans hr)
      refine ⟨free', [c], hg', hused.ge, fun x hx h₁ h₂ hm => hframe x hx h₁ h₂ (hm c (by simp)),
        fun d hd => .inl ?_⟩
      rw [mem_singleton.1 hd]
      exact ⟨hc, hcuv⟩
    · rw [hg.without_eq_self (.inr hno)]
      rw [prMemfree_of_not_carries hg hno, Option.some.injEq] at hr
      rwa [← hr]
  | realloc ptr n =>
    obtain ⟨⟨p, k⟩, hr, hk⟩ := bind_eq_some_iff.1 hexec
    obtain ⟨rfl, rfl⟩ := Prod.mk.inj (some.inj hk)
    obtain ⟨hn, hlegal⟩ := hlegal
    rcases hlegal with rfl | ⟨c, hc, rfl⟩ | hno
    · rw [prMemrealloc, if_pos rfl] at hr
      obtain ⟨hp, hall⟩ := halloc hn (hsafe (.inl rfl)) hr
      rwa [if_neg hp, hg.without_eq_self (.inl rfl)]
    · obtain ⟨hhead, hlt, hmark⟩ := hg.isMarked hc
      have hcarries : h.Carries (c.addr + 8) := ⟨by rwa [hhead], hmark.1⟩
      obtain ⟨us, vs, rfl, hwithout, hcuv⟩ := Layout.without_eq hg.layout hc
      obtain ⟨d, free', rfl, rfl, hd, hg', hle, hframe⟩ :=
        prMemrealloc_spec hg hn (hsafe (.inr hcarries)) hr
      rw [if_neg (Nat.succ_ne_zero _), hwithout, hg'.register_eq]
      refine ⟨free', [c, d], hg', hle, hframe, fun e he => ?_⟩
      simp only [mem_cons, not_mem_nil, or_false] at he
      rcases he with rfl | rfl
      · refine .inl ⟨hc, fun hmem => ?_⟩
        rcases mem_cons.1 hmem with rfl | hmem
        · exact hd hc
        · exact hcuv hmem
      · exact .inr ⟨mem_cons_self .., hd⟩
    · by_cases h0 : ptr = 0
      · subst h0
        rw [prMemrealloc, if_pos rfl] at hr
        obtain ⟨hp, hall⟩ := halloc hn (hsafe (.inl rfl)) hr
        rwa [if_neg hp, hg.without_eq_self (.inl rfl)]
      · have hbad : h.addressableused ≤ headerOf ptr ∨ ¬h.Marked ptr := by
          by_contra hok
          rw [not_or, not_not] at hok
          exact hno ⟨Nat.not_le.1 hok.1, hok.2.1⟩
        rw [prMemrealloc, if_neg h0, hg.validate, bind_eq_bind, bind_some, if_pos hbad] at hr
        obtain ⟨rfl, rfl⟩ := Prod.mk.inj (some.inj hr)
        rwa [if_pos rfl]

/-- The heap before any call. -/
theorem QcHeap.Start.good {h : QcHeap} (hs : h.Start) : Good h.addressableused h [] [] where
  list := ⟨trivial, hs.mfreelist_eq, fun _ hb => absurd hb not_mem_nil⟩
  layout := ⟨.nil, fun _ hb => absurd hb not_mem_nil, fun _ hb => absurd hb not_mem_nil,
    fun _ hb => absurd hb not_mem_nil, .nil, fun _ hb => absurd hb not_mem_nil, hs.used_pos⟩
  marked := fun _ hb => absurd hb not_mem_nil
  base_le := le_rfl
  used_lt := hs.used_lt
  size_le := hs.size_le

/-- Every heap of a safe run is good, and as it was below what was used at the start. -/
theorem QcHeap.Run.good {h₀ h : QcHeap} {live : List QcLive} (hs : h₀.Start)
    (hr : Run (fun h op => op.Safe h) h₀ h live) :
    (∃ free, Good h₀.addressableused h free live) ∧ ∀ x < h₀.addressableused, h.mem x = h₀.mem x := by
  induction hr with
  | start => exact ⟨⟨[], hs.good⟩, fun _ _ => rfl⟩
  | call op _ hlegal hop hexec ih =>
    obtain ⟨⟨free, hg⟩, hbelow⟩ := ih
    obtain ⟨free', moved, hg', -, hframe, hmoved⟩ := op.exec_spec hg hlegal hop hexec
    exact ⟨⟨free', hg'⟩, fun x hx => (hg.below hg' hframe hmoved hx).trans (hbelow x hx)⟩
  | write c i bytes _ hc hfit ih =>
    obtain ⟨⟨free, hg⟩, hbelow⟩ := ih
    have hin := (hg.layout.inside c hc).1
    refine ⟨⟨free, hg.write hc fun x hx => ?_⟩, fun x hx => ?_⟩
    · rcases hx with hx | hx
      · exact Mem.blit_apply_lt _ _ (by omega)
      · exact Mem.blit_apply_ge _ _ (by omega)
    · rw [← hbelow x hx]
      exact Mem.blit_apply_lt _ _ (by omega)

/-- What a heap and the blocks in use there should be like, and what calls under the condition `C`
may do to them. -/
def QcHeap.Sound (C : QcHeap → QcCall → Prop) (h₀ h : QcHeap) (live : List QcLive) : Prop :=
  (∃ free, Good h₀.addressableused h free live) ∧
    (∀ x < h₀.addressableused, h.mem x = h₀.mem x) ∧
    ∀ (op : QcCall) (h' : QcHeap) (live' : List QcLive), op.Legal h live → C h op →
      op.exec h live = some (h', live') → CallFrame h h' live live'

/-- **The heap of the virtual machine.** While no allocation splits the last of several free blocks
or outgrows the hunk, the free list is ascending and doubly linked, free blocks and blocks in use lie
apart inside the memory that is used, each block in use holds what was asked for, and no call changes
a byte but those of headers of free blocks and of the block that it returns or frees. -/
theorem qcHeap_run {h₀ h : QcHeap} {live : List QcLive} (hs : h₀.Start)
    (hr : Run (fun h op => op.Safe h) h₀ h live) : Sound (fun h op => op.Safe h) h₀ h live := by
  obtain ⟨⟨free, hg⟩, hbelow⟩ := hr.good hs
  refine ⟨⟨free, hg⟩, hbelow, fun op h' live' hlegal hop hexec => ?_⟩
  obtain ⟨free', moved, hg', -, hframe, hmoved⟩ := op.exec_spec hg hlegal hop hexec
  exact hg.callFrame hg' hframe hmoved

/-- A small hunk. -/
def smallHunk : QcHeap := ⟨fun _ => 0x41, 16, 65536, 0, none⟩

theorem smallHunk_start : smallHunk.Start := ⟨rfl, by decide, by decide, by decide⟩

/-- A block is allocated and freed. -/
theorem qcHeap_run_small : ∃ h, Run (fun h op => op.Safe h) smallHunk h [] ∧
    h.OnFreeList 16 ∧ Sound (fun h op => op.Safe h) smallHunk h [] := by
  have hboth : ((QcCall.alloc 10).exec smallHunk []).bind (fun s =>
      ((QcCall.free 24).exec s.1 s.2).map fun t => (s.2, t.1.mfreelist, t.2)) =
        some ([⟨16, 64, 10⟩], 16, []) := by
    decide +kernel
  obtain ⟨⟨h, live⟩, halloc, hrest⟩ := Option.bind_eq_some_iff.1 hboth
  obtain ⟨⟨h', live'⟩, hfree, heq⟩ := Option.map_eq_some_iff.1 hrest
  obtain ⟨rfl, hhead, rfl⟩ : live = [⟨16, 64, 10⟩] ∧ h'.mfreelist = 16 ∧ live' = [] := by
    simpa using heq
  have hsafe : (QcCall.alloc 10).Safe smallHunk := .inl (by decide)
  have h₁ := (Run.start (C := fun h op => op.Safe h)).call (.alloc 10)
    (by decide : (10 : ℕ) < 2 ^ 31) hsafe halloc
  have h₂ := h₁.call (.free 24) (.inr (.inl ⟨_, List.mem_singleton_self _, rfl⟩)) trivial hfree
  have hon : h'.OnFreeList h'.mfreelist := OnFreeList.head (by omega)
  rw [hhead] at hon
  exact ⟨h', h₂, hon, qcHeap_run smallHunk_start h₂⟩

/-! ## A run that is not safe -/

/-- Calls one after another, each of them legal. -/
def QcCall.execAll : List QcCall → QcHeap → List QcLive → Option (QcHeap × List QcLive)
  | [], h, live => some (h, live)
  | op :: ops, h, live =>
    if op.Legal h live then (op.exec h live).bind fun s => execAll ops s.1 s.2 else none

theorem QcHeap.Run.execAll {h₀ h : QcHeap} {live : List QcLive} {s : QcHeap × List QcLive}
    (ops : List QcCall) (hr : Run (fun _ _ => True) h₀ h live)
    (hs : QcCall.execAll ops h live = some s) : Run (fun _ _ => True) h₀ s.1 s.2 := by
  induction ops generalizing h live with
  | nil =>
    obtain rfl := some.inj hs
    exact hr
  | cons op ops ih =>
    rw [QcCall.execAll] at hs
    split_ifs at hs with hlegal
    obtain ⟨⟨k, live'⟩, hexec, hs⟩ := bind_eq_some_iff.1 hs
    exact ih (hr.call op hlegal trivial hexec) hs

/-- Three blocks are allocated, and the first and the last freed. -/
def twoFree : List QcCall := [.alloc 10, .alloc 10, .alloc 300, .free 24, .free 160]

/-- **A call that splits the last of two free blocks** writes to offset 4, where no block is. -/
theorem qcHeap_split_last : ¬∀ (h₀ h : QcHeap) (live : List QcLive), h₀.Start →
    Run (fun _ _ => True) h₀ h live → Sound (fun _ _ => True) h₀ h live := by
  intro hall
  have hbefore : (QcCall.execAll twoFree smallHunk []).map (fun s =>
      ([s.1.mfreelist, s.1.next 16, s.1.next 152, s.1.addressableused, (s.1.mem 4).toNat], s.2)) =
        some ([16, 152, 0, 476, 0x41], [⟨84, 64, 10⟩]) := by
    decide +kernel
  have hafter : (QcCall.execAll twoFree smallHunk []).bind (fun s =>
      ((QcCall.alloc 100).exec s.1 s.2).map fun t =>
        ([t.1.mfreelist, t.1.next 16, t.1.next 280, (t.1.mem 4).toNat], t.2)) =
          some ([16, 280, 0, 24], [⟨152, 128, 100⟩, ⟨84, 64, 10⟩]) := by
    decide +kernel
  obtain ⟨⟨h, live⟩, hs, heq⟩ := Option.map_eq_some_iff.1 hbefore
  rw [hs, Option.bind_some] at hafter
  obtain ⟨⟨h', live'⟩, hexec, heq'⟩ := Option.map_eq_some_iff.1 hafter
  simp only [Prod.mk.injEq, List.cons.injEq, and_true] at heq heq'
  obtain ⟨⟨hhead, hn₁, hn₂, hu, hm⟩, rfl⟩ := heq
  obtain ⟨⟨hhead', hn₁', hn₂', hm'⟩, rfl⟩ := heq'
  have hon {b : ℕ} (hb : h.OnFreeList b) : b = 16 ∨ b = 152 := by
    induction hb with
    | head hne => exact .inl hhead
    | next hb hne ih =>
      rcases ih with rfl | rfl
      · exact .inr hn₁
      · exact absurd hn₂ hne
  have hon' {b : ℕ} (hb : h'.OnFreeList b) : b = 16 ∨ b = 280 := by
    induction hb with
    | head hne => exact .inl hhead'
    | next hb hne ih =>
      rcases ih with rfl | rfl
      · exact .inr hn₁'
      · exact absurd hn₂' hne
  have hstart : Run (fun _ _ => True) smallHunk smallHunk [] := Run.start
  have hrun := hstart.execAll twoFree hs
  obtain ⟨-, -, hframe⟩ := hall smallHunk h _ smallHunk_start hrun
  have hne : h'.mem 4 ≠ h.mem 4 := fun e => by
    rw [e, hm] at hm'
    omega
  have hlegal : (100 : ℕ) < 2 ^ 31 := by omega
  rcases hframe (.alloc 100) h' _ hlegal trivial hexec 4 (by omega) hne with
    ⟨b, hb, hb4, -⟩ | ⟨c, hc, hc4, -⟩
  · rcases hb with hb | hb
    · have := hon hb
      omega
    · have := hon' hb
      omega
  · simp only [List.mem_cons, List.not_mem_nil, or_false] at hc
    rcases hc with ⟨rfl, -⟩ | ⟨rfl | rfl, -⟩
    all_goals
      revert hc4
      decide

end FteQuake
