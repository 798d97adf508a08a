import FteQuake.Lib.BoundedMemory
import FteQuake.Lib.StableMerge

/-!
# Sorting leafs

`BIH_SortLeafs` of `com_bih.c` on its two arrays. A read or a write that is not in the first `numleafs` entries fails;
none does, and the array is sorted by `StableMerge.sort` (`sortLeafs_spec`).
-/

namespace FteQuake

open List Option Mem

namespace BihSort

variable {β : Type*} (cmp : β → β → ℤ) (numleafs : ℕ)

/-! ## The code -/

/-- An entry of an array. -/
def entry (m : Mem β) (i : ℕ) : Option β := if i < numleafs then some (m i) else none

/-- `while (l < lend) scratch[o++] = leafs[l++];` -/
def copyLoop (leafs : Mem β) (l lend o : ℕ) (scratch : Mem β) : Option (ℕ × Mem β) :=
  if l < lend then
    (entry numleafs leafs l).bind fun a => (scratch.put numleafs o a).bind (copyLoop leafs (l + 1) lend (o + 1))
  else some (o, scratch)
termination_by lend - l

/-- The merge of two runs. -/
def mergeLoop (leafs : Mem β) (l lend r rend o : ℕ) (scratch : Mem β) : Option (Mem β) :=
  if l < lend ∧ r < rend then
    (entry numleafs leafs l).bind fun a => (entry numleafs leafs r).bind fun b =>
      if cmp a b ≤ 0 then (scratch.put numleafs o a).bind (mergeLoop leafs (l + 1) lend r rend (o + 1))
      else (scratch.put numleafs o b).bind (mergeLoop leafs l lend (r + 1) rend (o + 1))
  else
    (copyLoop numleafs leafs l lend o scratch).bind fun st =>
      (copyLoop numleafs leafs r rend st.1 st.2).map Prod.snd
termination_by (lend - l) + (rend - r)

/-- The inner `for` of `BIH_SortLeafs`. The width is not 0. -/
def runsLoop (width : ℕ) (leafs : Mem β) (i : ℕ) (scratch : Mem β) : Option (Mem β) :=
  if i < numleafs ∧ width ≠ 0 then
    (mergeLoop cmp numleafs leafs i (min (i + width) numleafs) (min (i + width) numleafs)
      (min (i + width * 2) numleafs) i scratch).bind (runsLoop width leafs (i + width * 2))
  else some scratch
termination_by numleafs - i

/-- The outer `for`, with the `memcpy` at its end. -/
def widthLoop (width : ℕ) (leafs scratch : Mem β) : Option (Mem β × Mem β) :=
  if width < numleafs ∧ width ≠ 0 then
    (runsLoop cmp numleafs width leafs 0 scratch).bind fun scratch =>
      widthLoop (width * 2) (leafs.blit 0 (scratch.slice 0 numleafs)) scratch
  else some (leafs, scratch)
termination_by numleafs - width

/-- `BIH_SortLeafs`. -/
def sortLeafs (leafs scratch : Mem β) : Option (Mem β × Mem β) := widthLoop cmp numleafs 1 leafs scratch

/-! ## What it does -/

/-- The order of a comparator. -/
def le (a b : β) : Bool := cmp a b ≤ 0

variable {cmp numleafs} {leafs scratch : Mem β}

theorem entry_of_lt {i : ℕ} (h : i < numleafs) (m : Mem β) : entry numleafs m i = some (m i) := if_pos h

theorem slice_of_lt {m : Mem β} {l lend : ℕ} (h : l < lend) :
    m.slice l (lend - l) = m l :: m.slice (l + 1) (lend - (l + 1)) := by
  rw [show lend - l = lend - (l + 1) + 1 by omega, slice_succ]

theorem slice_of_le {m : Mem β} {l lend : ℕ} (h : lend ≤ l) : m.slice l (lend - l) = [] := by
  rw [Nat.sub_eq_zero_of_le h, slice_zero]

theorem copyLoop_spec {l lend o : ℕ} (hlend : lend ≤ numleafs) (ho : o + (lend - l) ≤ numleafs) :
    copyLoop numleafs leafs l lend o scratch = some (o + (lend - l), scratch.blit o (leafs.slice l (lend - l))) := by
  induction hn : lend - l generalizing l o scratch with
  | zero =>
    rw [copyLoop, if_neg (by omega)]
    simp
  | succ n ih =>
    have hl : l < lend := by omega
    rw [copyLoop, if_pos hl, entry_of_lt (by omega), bind_some, put_of_lt (by omega), bind_some,
      ih (by omega) (by omega), slice_succ]
    have happend : scratch.blit o (leafs l :: leafs.slice (l + 1) n) =
        (scratch.blit o [leafs l]).blit (o + 1) (leafs.slice (l + 1) n) := blit_append _ _ [leafs l] _
    rw [happend, show o + 1 + n = o + (n + 1) by omega]

theorem mergeLoop_spec {l lend r rend o : ℕ} (hlend : lend ≤ numleafs) (hrend : rend ≤ numleafs)
    (ho : o + (lend - l) + (rend - r) ≤ numleafs) :
    mergeLoop cmp numleafs leafs l lend r rend o scratch =
      some (scratch.blit o (List.merge (leafs.slice l (lend - l)) (leafs.slice r (rend - r)) (le cmp))) := by
  induction hn : lend - l + (rend - r) generalizing l r o scratch with
  | zero =>
    rw [mergeLoop, if_neg (by omega), copyLoop_spec hlend (by omega), bind_some, slice_of_le (by omega),
      slice_of_le (by omega), copyLoop_spec hrend (by omega), slice_of_le (by omega)]
    simp
  | succ n ih =>
    by_cases hboth : l < lend ∧ r < rend
    · obtain ⟨hl, hr⟩ := hboth
      rw [mergeLoop, if_pos ⟨hl, hr⟩, entry_of_lt (by omega), bind_some, entry_of_lt (by omega), bind_some,
        put_of_lt (by omega), put_of_lt (by omega), bind_some, bind_some, slice_of_lt hl,
        slice_of_lt hr, cons_merge_cons]
      by_cases hle : cmp (leafs l) (leafs r) ≤ 0
      · rw [if_pos hle, if_pos (show le cmp (leafs l) (leafs r) = true from decide_eq_true hle),
          ih (by omega) (by omega), ← slice_of_lt hr]
        exact congrArg some (blit_append _ _ [leafs l] _).symm
      · rw [if_neg hle, if_neg (by simpa [le] using hle), ih (by omega) (by omega), ← slice_of_lt hl]
        exact congrArg some (blit_append _ _ [leafs r] _).symm
    · rw [mergeLoop, if_neg hboth, copyLoop_spec hlend (by omega), bind_some, copyLoop_spec hrend (by omega),
        map_some]
      -- one of the runs is at its end
      rcases Nat.lt_or_ge l lend with hl | hl
      · have hr : rend ≤ r := by omega
        rw [slice_of_le hr]
        simp
      · rw [slice_of_le hl]
        simp [Nat.sub_eq_zero_of_le hl]

theorem runsLoop_spec {width i : ℕ} (hwidth : width ≠ 0) :
    runsLoop cmp numleafs width leafs i scratch =
      some (scratch.blit i (StableMerge.mergeRuns (le cmp) width (leafs.slice i (numleafs - i)))) := by
  induction hn : numleafs - i using Nat.strong_induction_on generalizing i scratch with
  | _ n ih =>
    by_cases hi : i < numleafs
    · have htake : (leafs.slice i n).take width = leafs.slice i (min (i + width) numleafs - i) := by
        rw [show min (i + width) numleafs - i = min width n by omega]
        rcases Nat.le_total width n with h | h
        · rw [take_slice _ _ _ _ h, min_eq_left h]
        · rw [take_of_length_le (by simpa using h), min_eq_right h]
      have hdrop : ((leafs.slice i n).drop width).take width =
          leafs.slice (min (i + width) numleafs) (min (i + width * 2) numleafs - min (i + width) numleafs) := by
        rw [drop_slice]
        rcases Nat.le_total (i + width) numleafs with h | h
        · rw [min_eq_left h]
          rcases Nat.le_total width (n - width) with h' | h'
          · rw [take_slice _ _ _ _ h']
            congr 1
            omega
          · rw [take_of_length_le (by simpa using h')]
            congr 1
            omega
        · rw [show n - width = 0 by omega, show min (i + width * 2) numleafs - min (i + width) numleafs = 0 by omega,
            slice_zero, slice_zero, take_nil]
      have hlen : (List.merge (leafs.slice i (min (i + width) numleafs - i))
          (leafs.slice (min (i + width) numleafs) (min (i + width * 2) numleafs - min (i + width) numleafs))
          (le cmp)).length = min (width * 2) n := by
        simp only [length_merge, length_slice]
        omega
      have hne : leafs.slice i n ≠ [] := ne_nil_of_length_pos (by rw [length_slice]; omega)
      rw [runsLoop, if_pos ⟨hi, hwidth⟩, mergeLoop_spec (min_le_right _ _) (min_le_right _ _) (by omega), bind_some,
        ih (numleafs - (i + width * 2)) (by omega) rfl, StableMerge.mergeRuns_of_ne _ hne hwidth, htake, hdrop,
        blit_append, hlen, drop_slice]
      rcases Nat.le_total (width * 2) n with h | h
      · rw [min_eq_left h, show n - width * 2 = numleafs - (i + width * 2) by omega]
      · rw [show n - width * 2 = 0 by omega, show numleafs - (i + width * 2) = 0 by omega, slice_zero,
          StableMerge.mergeRuns_nil, blit_nil, blit_nil]
    · rw [runsLoop, if_neg (by tauto), show n = 0 by omega, slice_zero, StableMerge.mergeRuns_nil, blit_nil]

/-- What the loops leave: the first array sorted, and both as they were behind it. -/
structure Sorted (cmp : β → β → ℤ) (numleafs width : ℕ) (leafs scratch leafs' scratch' : Mem β) : Prop where
  sorted : leafs'.slice 0 numleafs = StableMerge.sortFrom (le cmp) width (leafs.slice 0 numleafs)
  leafs_kept : ∀ i, numleafs ≤ i → leafs' i = leafs i
  scratch_kept : ∀ i, numleafs ≤ i → scratch' i = scratch i

theorem slice_blit_of_length {m : Mem β} {p n : ℕ} {xs : List β} (h : xs.length = n) : (m.blit p xs).slice p n = xs :=
  h ▸ slice_blit_self m p xs

theorem widthLoop_spec {width : ℕ} (hwidth : width ≠ 0) : ∃ leafs' scratch',
    widthLoop cmp numleafs width leafs scratch = some (leafs', scratch') ∧
      Sorted cmp numleafs width leafs scratch leafs' scratch' := by
  induction hn : numleafs - width using Nat.strong_induction_on generalizing width leafs scratch with
  | _ n ih =>
    by_cases hmore : width < numleafs
    · have hlen : (StableMerge.mergeRuns (le cmp) width (leafs.slice 0 numleafs)).length = numleafs := by simp
      obtain ⟨leafs', scratch', hrun, hsorted⟩ := @ih (numleafs - width * 2) (by omega)
        (leafs.blit 0 (StableMerge.mergeRuns (le cmp) width (leafs.slice 0 numleafs)))
        (scratch.blit 0 (StableMerge.mergeRuns (le cmp) width (leafs.slice 0 numleafs))) (width * 2) (by omega) rfl
      refine ⟨leafs', scratch', ?_, ?_, fun i hi => ?_, fun i hi => ?_⟩
      · rw [widthLoop, if_pos ⟨hmore, hwidth⟩, runsLoop_spec hwidth, bind_some, Nat.sub_zero,
          slice_blit_of_length hlen, hrun]
      · rw [hsorted.sorted, slice_blit_of_length hlen]
        conv_rhs => rw [StableMerge.sortFrom, if_pos ⟨by simpa using hmore, hwidth⟩]
      · rw [hsorted.leafs_kept i hi, blit_apply_ge _ _ (by omega)]
      · rw [hsorted.scratch_kept i hi, blit_apply_ge _ _ (by omega)]
    · refine ⟨leafs, scratch, ?_, ?_, fun _ _ => rfl, fun _ _ => rfl⟩
      · rw [widthLoop, if_neg (by omega)]
      · rw [StableMerge.sortFrom, if_neg (by simp; omega)]

/-- The sort ends, and has sorted the array. -/
theorem sortLeafs_spec (cmp : β → β → ℤ) (numleafs : ℕ) (leafs scratch : Mem β) : ∃ leafs' scratch',
    sortLeafs cmp numleafs leafs scratch = some (leafs', scratch') ∧
      leafs'.slice 0 numleafs = StableMerge.sort (le cmp) (leafs.slice 0 numleafs) ∧
      (∀ i, numleafs ≤ i → leafs' i = leafs i) ∧ ∀ i, numleafs ≤ i → scratch' i = scratch i := by
  obtain ⟨leafs', scratch', hrun, hsorted⟩ := widthLoop_spec one_ne_zero
  exact ⟨leafs', scratch', hrun, hsorted.sorted, hsorted.leafs_kept, hsorted.scratch_kept⟩

end BihSort

end FteQuake
