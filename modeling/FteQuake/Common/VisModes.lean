import FteQuake.Common.Q1Bsp

/-!
# The two modes of decompression

`Q1BSP_DecompressVis` replaces a row or merges into it. Where the data hold a whole row, both modes stay in the row and
agree (`modesAgree_iff`). Neither knows where the data end, and a row of no bytes gets one all the same: the loops test
behind their bodies.
-/

namespace FteQuake

namespace Q1Bsp

/-- How many bytes of a buffer are filled. -/
def rowIn (mod : Model) (buffersize : ℕ) : ℕ := min mod.row buffersize

/-- Both modes end in the data and leave all behind the row as it was, and merging is `|=` of what is written. -/
structure ModesAgree (inp : Option (List Byte)) (mod : Model) (buf plain merged : List Byte) : Prop where
  replaces : decompressVis inp mod buf false = some plain
  merges : decompressVis inp mod buf true = some merged
  length_plain : plain.length = buf.length
  length_merged : merged.length = buf.length
  kept_plain : ∀ i, rowIn mod buf.length ≤ i → plain.getD i 0#8 = buf.getD i 0#8
  kept_merged : ∀ i, rowIn mod buf.length ≤ i → merged.getD i 0#8 = buf.getD i 0#8
  or : ∀ i, merged.getD i 0#8 = buf.getD i 0#8 ||| plain.getD i 0#8

/-- The data hold `row` bytes of zero runs and others. With no row, they begin with a run. -/
structure HoldsRow (row : ℕ) (inp : List Byte) : Prop where
  length : row ≤ (expand inp).length
  run : row = 0 → ∃ c rest, inp = 0#8 :: c :: rest

variable {buf inp : List Byte} {mod : Model} {row : ℕ}

theorem laid_eq_zero {xs : List Byte} {i : ℕ} (h : row ≤ i) : laid row 0 xs i = 0#8 :=
  if_neg (by omega)

theorem getD_allVisible {i : ℕ} :
    (List.replicate row (0xff : Byte) ++ buf.drop row).getD i 0#8 = if i < row then 0xff else buf.getD i 0#8 := by
  split_ifs with hi
  · rw [List.getD_append _ _ _ _ (by simpa using hi), List.getD_replicate _ hi]
  · rw [List.getD_append_right _ _ _ _ (by simpa using hi), List.length_replicate]
    simp only [List.getD_eq_getElem?_getD, List.getElem?_drop, Nat.add_sub_cancel' (not_lt.mp hi)]

/-- No vis info, so all visible. -/
theorem modesAgree_none (mod : Model) (buf : List Byte) : ∃ plain merged, ModesAgree none mod buf plain merged := by
  have hle : rowIn mod buf.length ≤ buf.length := min_le_right _ _
  have hlen : (List.replicate (rowIn mod buf.length) (0xff : Byte) ++ buf.drop (rowIn mod buf.length)).length =
      buf.length := by
    simp only [List.length_append, List.length_replicate, List.length_drop]
    omega
  have hkept : ∀ i, rowIn mod buf.length ≤ i →
      (List.replicate (rowIn mod buf.length) (0xff : Byte) ++ buf.drop (rowIn mod buf.length)).getD i 0#8 =
        buf.getD i 0#8 := fun i hi => by rw [getD_allVisible, if_neg (not_lt.mpr hi)]
  refine ⟨_, _, rfl, rfl, hlen, hlen, hkept, hkept, fun i => ?_⟩
  rw [getD_allVisible]
  split_ifs
  · exact (BitVec.or_allOnes (w := 8)).symm
  · exact BitVec.or_self.symm

/-- A row in the data is what both modes write. -/
theorem modesAgree_some (hpos : 0 < rowIn mod buf.length)
    (hrow : rowIn mod buf.length ≤ (expand inp).length) : ∃ plain merged, ModesAgree (some inp) mod buf plain merged := by
  have hin : rowIn mod buf.length ≤ 0 + (expand inp).length := by omega
  obtain ⟨plain, hplain, hlen, hget⟩ := replaceLoop_spec hpos hin (min_le_right _ _)
  obtain ⟨merged, hmerged, hlen', hget'⟩ := mergeLoop_spec hpos hin (min_le_right _ _)
  refine ⟨plain, merged, hplain, hmerged, hlen, hlen', fun i hi => ?_, fun i hi => ?_, fun i => ?_⟩
  · rw [hget, if_neg (by omega)]
  · rw [hget', laid_eq_zero hi, BitVec.or_zero]
  · rw [hget', hget]
    split_ifs with hi
    · rfl
    · rw [laid_eq_zero (by omega), BitVec.or_zero, BitVec.or_self]

/-- Plain decompression that ends in the data has found a row there. -/
theorem row_le_of_replaceLoop {out : ℕ} {buf' : List Byte} (hout : out < row)
    (h : replaceLoop row inp out buf = some buf') : row ≤ out + (expand inp).length := by
  induction inp using expand.induct generalizing out buf with
  | case1 => simp [replaceLoop] at h
  | case2 b inp hb ih =>
    rw [expand_cons_of_ne hb, List.length_cons]
    have hlt : out < buf.length := by
      by_contra hout
      cases inp <;> simp [replaceLoop, hb, hout] at h
    rw [replaceLoop_byte hb hlt] at h
    split_ifs at h with hmore
    · have := ih hmore h
      omega
    · omega
  | case3 b hb => simp [replaceLoop, not_not.mp hb] at h
  | case4 b hb c inp ih =>
    obtain rfl := not_not.mp hb
    rw [expand_zero_cons, List.length_append, List.length_replicate]
    rw [replaceLoop_run hout] at h
    split_ifs at h with hmore
    · have := ih hmore h
      omega
    · omega

/-- With no row, a run ends the loops at once. -/
theorem modesAgree_empty {c : Byte} (hrow : rowIn mod buf.length = 0) :
    ModesAgree (some (0#8 :: c :: inp)) mod buf buf buf := by
  have hplain : decompressVis (some (0#8 :: c :: inp)) mod buf false = some buf := by
    simp only [decompressVis]
    rw [show min ((mod.numclusters + 7) / 8) buf.length = 0 from hrow]
    have hn : (if 0 < c.toNat then 0 else c.toNat) = 0 := by split_ifs <;> omega
    simp [replaceLoop, hn, zeroLoop]
  have hmerged : decompressVis (some (0#8 :: c :: inp)) mod buf true = some buf := by
    simp only [decompressVis]
    rw [show min ((mod.numclusters + 7) / 8) buf.length = 0 from hrow]
    simp [mergeLoop]
  exact ⟨hplain, hmerged, rfl, rfl, fun _ _ => rfl, fun _ _ => rfl, fun i => BitVec.or_self.symm⟩

/-- A byte is written all the same. -/
theorem exists_of_modesAgree_empty {plain merged : List Byte} {n : ℕ} (hrow : rowIn mod n = 0)
    (h : ModesAgree (some inp) mod (List.replicate n 0#8) plain merged) : ∃ c rest, inp = 0#8 :: c :: rest := by
  have hrun := h.replaces
  have hlen : (List.replicate n 0#8).length = n := List.length_replicate
  simp only [decompressVis, Bool.false_eq_true, if_false, hlen] at hrun
  rw [show min ((mod.numclusters + 7) / 8) n = 0 from hrow] at hrun
  cases inp with
  | nil => simp [replaceLoop] at hrun
  | cons b rest =>
    by_cases hb : b = 0#8
    · cases rest with
      | nil => simp [replaceLoop, hb] at hrun
      | cons c rest => exact ⟨c, rest, by rw [hb]⟩
    · exfalso
      have hn : 0 < n := by
        by_contra hn
        cases rest <;> simp [replaceLoop, hb, hn] at hrun
      rw [replaceLoop_byte hb (by rwa [hlen]), if_neg (by omega)] at hrun
      have hkept := h.kept_plain 0 (by rw [hlen, hrow])
      rw [← Option.some.inj hrun, getD_set (by rwa [hlen]), if_pos rfl, List.getD_replicate _ hn] at hkept
      exact hb hkept

/-- For every buffer of a size, both modes do as they should just if the data hold a row. -/
theorem modesAgree_iff (inp : Option (List Byte)) (mod : Model) (buffersize : ℕ) :
    (∀ buf : List Byte, buf.length = buffersize → ∃ plain merged, ModesAgree inp mod buf plain merged) ↔
      ∀ data, inp = some data → HoldsRow (rowIn mod buffersize) data := by
  constructor
  · rintro h data rfl
    obtain ⟨plain, merged, hagree⟩ := h (List.replicate buffersize 0#8) List.length_replicate
    rcases Nat.eq_zero_or_pos (rowIn mod buffersize) with hrow | hpos
    · exact ⟨by omega, fun _ => exists_of_modesAgree_empty hrow hagree⟩
    · have hrun := hagree.replaces
      have hmin : min ((mod.numclusters + 7) / 8) (List.replicate buffersize 0#8).length = rowIn mod buffersize := by
        rw [List.length_replicate]
        rfl
      simp only [decompressVis, Bool.false_eq_true, if_false, hmin] at hrun
      refine ⟨?_, fun h0 => absurd h0 hpos.ne'⟩
      simpa using row_le_of_replaceLoop hpos hrun
  · rintro h buf rfl
    cases inp with
    | none => exact modesAgree_none mod buf
    | some data =>
      obtain ⟨hrow, hrun⟩ := h data rfl
      rcases Nat.eq_zero_or_pos (rowIn mod buf.length) with h0 | hpos
      · obtain ⟨c, rest, rfl⟩ := hrun h0
        exact ⟨_, _, modesAgree_empty h0⟩
      · exact modesAgree_some hpos hrow

/-- A leaf of 16 clusters whose data end behind the first byte of the row. -/
theorem not_modesAgree_short :
    ¬ ∀ buf : List Byte, buf.length = 2 →
      ∃ plain merged, ModesAgree (some [1#8]) ⟨.leaf 0 ⟨-1, by decide⟩, 16, fun _ => none⟩ buf plain merged := by
  intro h
  obtain ⟨plain, merged, hagree⟩ := h [0#8, 0#8] rfl
  have hnone : decompressVis (some [1#8]) ⟨.leaf 0 ⟨-1, by decide⟩, 16, fun _ => none⟩ [0#8, 0#8] false = none := by
    decide
  rw [hagree.replaces] at hnone
  cases hnone

end Q1Bsp

end FteQuake
