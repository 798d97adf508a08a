import FteQuake.Lib.BitFlags
import Mathlib.Algebra.Order.Ring.Rat
import Mathlib.Algebra.BigOperators.Fin
import Mathlib.Data.List.GetD
import Mathlib.Tactic.Linarith
import Mathlib.Tactic.FinCases
import Mathlib.Tactic.NormNum

/-!
# Entity culling by potentially visible sets

The server's side of `q1bsp.c`: `Q1BSP_FatPVS`, `Q1BSP_FindTouchedLeafs` and `Q1BSP_EdictInFatPVS` with
`Q1BSP_DecompressVis` below them. Coordinates are rationals, a visibility row is a list of bytes.

`edictInFatPVS_of_visible` says that no entity is culled that touches a leaf seen from near a viewpoint.
-/

namespace FteQuake

open List

namespace Q1Bsp

/-- `qbyte`. -/
abbrev Byte := BitVec 8

/-- `vec3_t`. -/
abbrev Vec := Fin 3 → ℚ

/-- `DotProduct`. -/
def dotProduct (x y : Vec) : ℚ := x 0 * y 0 + x 1 * y 1 + x 2 * y 2

/-- The fields of `mplane_t` that are read from the file. -/
structure Plane where
  normal : Vec
  dist : ℚ
  type : ℕ

/-- `signbits`, as `Mod_LoadPlanes` computes them from the normal. -/
def Plane.signbits (p : Plane) : Fin 3 → Bool := fun j => p.normal j < 0

/-- `mnode_t` and `mleaf_t`: the field `contents` is negative in a leaf and in no node. The number is
that of the leaf in `leafs`. -/
inductive Node
  | leaf (num : ℕ) (contents : {c : ℤ // c < 0})
  | node (plane : Plane) (children₀ children₁ : Node)

/-- `Q1CONTENTS_SOLID`. -/
def contentsSolid : ℤ := -2

/-- The fields of `model_t`. `compressedVis` holds what is found from `leafs[i].compressed_vis` on. -/
structure Model where
  nodes : Node
  numclusters : ℕ
  compressedVis : ℕ → Option (List Byte)

/-- `pvsbytes`. -/
def Model.pvsbytes (mod : Model) : ℕ := (mod.numclusters + 31) / 8 / 4 * 4

/-! ## Decompressing visibility -/

/-- The merging loop of `Q1BSP_DecompressVis`; `none` where it leaves the data or the buffer. -/
def mergeLoop (row : ℕ) : List Byte → ℕ → List Byte → Option (List Byte)
  | [], _, _ => none
  | b :: inp, out, buf =>
    if b ≠ 0#8 then
      if out < buf.length then
        if out + 1 < row then mergeLoop row inp (out + 1) (buf.modify out (· ||| b))
        else some (buf.modify out (· ||| b))
      else none
    else
      match inp with
      | [] => none
      | c :: inp => if out + c.toNat < row then mergeLoop row inp (out + c.toNat) buf else some buf

/-- `while (c) { *out++ = 0; c--; }`. -/
def zeroLoop : ℕ → ℕ → List Byte → List Byte
  | 0, _, buf => buf
  | c + 1, out, buf => zeroLoop c (out + 1) (buf.set out 0#8)

/-- The other loop. -/
def replaceLoop (row : ℕ) : List Byte → ℕ → List Byte → Option (List Byte)
  | [], _, _ => none
  | b :: inp, out, buf =>
    if b ≠ 0#8 then
      if out < buf.length then
        if out + 1 < row then replaceLoop row inp (out + 1) (buf.set out b)
        else some (buf.set out b)
      else none
    else
      match inp with
      | [] => none
      | c :: inp =>
        let n := if out + c.toNat > row then row - out else c.toNat
        if out + n < row then replaceLoop row inp (out + n) (zeroLoop n out buf)
        else some (zeroLoop n out buf)

/-- `Q1BSP_DecompressVis` into a buffer of the given contents. -/
def decompressVis (inp : Option (List Byte)) (mod : Model) (buf : List Byte) (merge : Bool) :
    Option (List Byte) :=
  let row := min ((mod.numclusters + 7) / 8) buf.length
  match inp with
  | none => some (List.replicate row 0xff ++ buf.drop row)
  | some inp => if merge then mergeLoop row inp 0 buf else replaceLoop row inp 0 buf

/-- `BZ_Realloc` to `size` bytes when the buffer is smaller; what is new holds anything. -/
def grow (junk : ℕ → Byte) (size : ℕ) (buf : List Byte) : List Byte :=
  if buf.length < size then (List.range size).map (fun i => buf.getD i (junk i)) else buf

/-- `memset`. -/
def memset (c : Byte) (n : ℕ) (buf : List Byte) : List Byte := List.replicate n c ++ buf.drop n

/-- `Q1BSP_ClusterPVS` into a buffer, with `PVM_MERGE` or `PVM_REPLACE`. -/
def clusterPVS (junk : ℕ → Byte) (mod : Model) (cluster : ℤ) (buf : List Byte) (merge : Bool) :
    Option (List Byte) :=
  if cluster = -1 then some (memset 0xff mod.pvsbytes (grow junk mod.pvsbytes buf))
  else decompressVis (mod.compressedVis (cluster + 1).toNat) mod (grow junk mod.pvsbytes buf) merge

/-! ## The fat PVS of viewpoints -/

/-- `SV_Q1BSP_AddToFatPVS`. -/
def addToFatPVS (junk : ℕ → Byte) (mod : Model) (org : Vec) :
    Node → List Byte → Option (List Byte)
  | .leaf num contents, buf =>
    if contents.1 ≠ contentsSolid then clusterPVS junk mod ((num : ℤ) - 1) buf true else some buf
  | .node plane c₀ c₁, buf =>
    let d := dotProduct org plane.normal - plane.dist
    if d > 8 then addToFatPVS junk mod org c₀ buf
    else if d < -8 then addToFatPVS junk mod org c₁ buf
    else (addToFatPVS junk mod org c₀ buf).bind (addToFatPVS junk mod org c₁)

/-- `Q1BSP_FatPVS`. -/
def fatPVS (junk : ℕ → Byte) (mod : Model) (org : Vec) (buf : List Byte) (add : Bool) :
    Option (List Byte) :=
  let buf := grow junk mod.pvsbytes buf
  addToFatPVS junk mod org mod.nodes (if add then buf else memset 0#8 mod.pvsbytes buf)

/-- `Q1BSP_LeafnumForPoint`. -/
def leafnumForPoint (p : Vec) : Node → ℕ
  | .leaf num _ => num
  | .node plane c₀ c₁ =>
    if dotProduct p plane.normal - plane.dist > 0 then leafnumForPoint p c₀ else leafnumForPoint p c₁

/-! ## The leafs of an entity -/

/-- `MAX_ENT_LEAFS`. -/
def maxEntLeafs : ℕ := 32

/-- `pvscache_t`: the leafs, or `num_leafs` negative. -/
structure PvsCache where
  num_leafs : ℤ
  leafnums : List ℤ

/-- The distances of the corners that `BoxOnPlaneSide` picks by `signbits`: the far one and the near
one along the normal. -/
def cornerDists (emins emaxs : Vec) (p : Plane) : ℚ × ℚ :=
  (dotProduct p.normal fun j => if p.signbits j then emins j else emaxs j,
   dotProduct p.normal fun j => if p.signbits j then emaxs j else emins j)

/-- `BoxOnPlaneSide`. -/
def boxOnPlaneSide (emins emaxs : Vec) (p : Plane) : Bool × Bool :=
  (decide ((cornerDists emins emaxs p).1 ≥ p.dist), decide ((cornerDists emins emaxs p).2 < p.dist))

/-- The macro `BOX_ON_PLANE_SIDE`: the bits 1 and 2 of the result. -/
def boxOnPlaneSideMacro (emins emaxs : Vec) (p : Plane) : Bool × Bool :=
  if h : p.type < 3 then
    if p.dist ≤ emins ⟨p.type, h⟩ then (true, false)
    else if p.dist ≥ emaxs ⟨p.type, h⟩ then (false, true)
    else (true, true)
  else boxOnPlaneSide emins emaxs p

/-- `Q1BSP_RFindTouchedLeafs`. -/
def rFindTouchedLeafs (mins maxs : Vec) : Node → PvsCache → PvsCache
  | .leaf num contents, ent =>
    if contents.1 = contentsSolid then ent
    else if ent.num_leafs < 0 ∨ maxEntLeafs ≤ ent.num_leafs then { ent with num_leafs := -1 }
    else { num_leafs := ent.num_leafs + 1, leafnums := ent.leafnums ++ [(num : ℤ) - 1] }
  | .node plane c₀ c₁, ent =>
    let sides := boxOnPlaneSideMacro mins maxs plane
    let ent := if sides.1 then rFindTouchedLeafs mins maxs c₀ ent else ent
    if sides.2 then rFindTouchedLeafs mins maxs c₁ ent else ent

/-- `Q1BSP_FindTouchedLeafs`. -/
def findTouchedLeafs (mod : Model) (mins maxs : Vec) : PvsCache :=
  rFindTouchedLeafs mins maxs mod.nodes { num_leafs := 0, leafnums := [] }

/-- The loop of `Q1BSP_EdictInFatPVS`; `none` where it reads outside the set. -/
def anyVisible (pvs : List Byte) : List ℤ → Option Bool
  | [] => some false
  | l :: leafnums =>
    if l < 0 then none
    else
      match pvs[l.toNat / 8]? with
      | none => none
      | some b => if b &&& (1#8 <<< (l.toNat % 8)) ≠ 0#8 then some true else anyVisible pvs leafnums

/-- `Q1BSP_EdictInFatPVS`. -/
def edictInFatPVS (ent : PvsCache) (pvs : List Byte) : Option Bool :=
  if ent.num_leafs < 0 then some true else anyVisible pvs ent.leafnums

/-! ## Rows of bits -/

/-- Zero runs written out. -/
def expand : List Byte → List Byte
  | [] => []
  | b :: inp =>
    if b ≠ 0#8 then b :: expand inp
    else
      match inp with
      | [] => []
      | c :: inp => List.replicate c.toNat 0#8 ++ expand inp

/-- The length of a row in bytes. -/
def Model.row (mod : Model) : ℕ := (mod.numclusters + 7) / 8

/-- The visibility row of a leaf. -/
def Model.visRow (mod : Model) (m : ℕ) : List Byte :=
  match mod.compressedVis m with
  | none => List.replicate mod.row 0xff
  | some inp => (expand inp).take mod.row

/-- Bit `l` of a row. -/
def bit (buf : List Byte) (l : ℕ) : Bool := (buf.getD (l / 8) 0#8).getLsbD (l % 8)

/-- The row of leaf `m` has the bit of leaf `n`. Leafs are counted from one there, clusters from
zero. -/
def Model.Sees (mod : Model) (m n : ℕ) : Prop :=
  ∃ l < mod.numclusters, n = l + 1 ∧ bit (mod.visRow m) l = true

/-- The data of a leaf hold a whole row. -/
def Model.HasRow (mod : Model) (m : ℕ) : Prop :=
  ∀ inp, mod.compressedVis m = some inp → mod.row ≤ (expand inp).length

/-- Every bit of `vis` is in `buf`. -/
def Covers (buf vis : List Byte) : Prop := ∀ l, bit vis l = true → bit buf l = true

theorem Covers.trans {a b c : List Byte} (hab : Covers b a) (hbc : Covers c b) : Covers c a :=
  fun l h => hbc l (hab l h)

@[simp] theorem expand_nil : expand [] = [] := by simp [expand]

variable {b : Byte} {buf inp : List Byte} {mod : Model} {ent : PvsCache} {maxs mins : Vec}
  {m n out row : ℕ}

theorem expand_cons_of_ne (hb : b ≠ 0#8) (inp : List Byte) :
    expand (b :: inp) = b :: expand inp := by
  cases inp <;> simp [expand, hb]

@[simp] theorem expand_zero : expand [0#8] = [] := by simp [expand]

theorem expand_zero_cons (c : Byte) (inp : List Byte) :
    expand (0#8 :: c :: inp) = List.replicate c.toNat 0#8 ++ expand inp := by
  simp [expand]

/-- The bytes `xs` laid down from `out` on, up to `row`. -/
def laid (row out : ℕ) (xs : List Byte) (i : ℕ) : Byte :=
  if out ≤ i ∧ i < row then xs.getD (i - out) 0#8 else 0#8

theorem laid_of_le (h : row ≤ out) (xs : List Byte) (i : ℕ) : laid row out xs i = 0#8 :=
  if_neg (by omega)

theorem laid_cons (h : out < row) (b : Byte) (xs : List Byte) (i : ℕ) :
    laid row out (b :: xs) i = (if i = out then b else 0#8) ||| laid row (out + 1) xs i := by
  unfold laid
  rcases lt_trichotomy i out with hi | rfl | hi
  · rw [if_neg (by omega), if_neg (by omega), if_neg (by omega)]
    simp
  · rw [if_pos ⟨le_rfl, h⟩, if_pos rfl, if_neg (by omega), Nat.sub_self, getD_cons_zero]
    simp
  · rw [if_neg (by omega : ¬i = out), show i - out = i - (out + 1) + 1 by omega, getD_cons_succ]
    rw [BitVec.zero_or]
    simp only [show out ≤ i ↔ out + 1 ≤ i by omega]

theorem laid_replicate_append (row out n : ℕ) (xs : List Byte) (i : ℕ) :
    laid row out (List.replicate n 0#8 ++ xs) i = laid row (out + n) xs i := by
  unfold laid
  by_cases hi : out ≤ i ∧ i < row
  · rw [if_pos hi]
    by_cases hn : i - out < n
    · rw [getD_append _ _ _ _ (by simpa using hn), getD_replicate _ hn,
        if_neg (by omega)]
    · rw [getD_append_right _ _ _ _ (by simpa using hn), length_replicate,
        if_pos (by omega), show i - out - n = i - (out + n) by omega]
  · rw [if_neg hi, if_neg (by omega)]

theorem getD_modify_or (h : out < buf.length) (b : Byte) (i : ℕ) :
    (buf.modify out (· ||| b)).getD i 0#8 = buf.getD i 0#8 ||| if i = out then b else 0#8 := by
  simp only [getD_eq_getElem?_getD, getElem?_modify]
  rcases eq_or_ne i out with rfl | hi
  · simp [h]
  · simp [hi, hi.symm]

theorem mergeLoop_byte (hb : b ≠ 0#8) (h : out < buf.length) (inp : List Byte) :
    mergeLoop row (b :: inp) out buf =
      if out + 1 < row then mergeLoop row inp (out + 1) (buf.modify out (· ||| b))
      else some (buf.modify out (· ||| b)) := by
  cases inp <;> simp [mergeLoop, hb, h]

theorem mergeLoop_run (row out : ℕ) (c : Byte) (inp buf : List Byte) :
    mergeLoop row (0#8 :: c :: inp) out buf =
      if out + c.toNat < row then mergeLoop row inp (out + c.toNat) buf else some buf := by
  simp [mergeLoop]

/-- What merging does: the row is ORed into the buffer from `out` on. -/
theorem mergeLoop_spec (hout : out < row) (hrow : row ≤ out + (expand inp).length) (hbuf : row ≤ buf.length) :
    ∃ buf', mergeLoop row inp out buf = some buf' ∧ buf'.length = buf.length ∧
      ∀ i, buf'.getD i 0#8 = buf.getD i 0#8 ||| laid row out (expand inp) i := by
  induction inp using expand.induct generalizing out buf with
  | case1 => simp at hrow; omega
  | case2 b inp hb ih =>
    have hlt : out < buf.length := hout.trans_le hbuf
    rw [expand_cons_of_ne hb] at hrow ⊢
    rw [mergeLoop_byte hb hlt]
    split_ifs with hmore
    · rw [length_cons] at hrow
      have hbuf' : row ≤ (buf.modify out (· ||| b)).length := by simpa using hbuf
      obtain ⟨buf', hrun, hlen, hget⟩ := ih hmore (by omega) hbuf'
      refine ⟨buf', hrun, by simpa using hlen, fun i => ?_⟩
      rw [hget, getD_modify_or hlt, laid_cons hout, BitVec.or_assoc]
    · refine ⟨_, rfl, by simp, fun i => ?_⟩
      rw [getD_modify_or hlt, laid_cons hout, laid_of_le (not_lt.mp hmore), BitVec.or_zero]
  | case3 b hb => simp [not_not.mp hb] at hrow; omega
  | case4 b hb c inp ih =>
    obtain rfl := not_not.mp hb
    rw [expand_zero_cons] at hrow ⊢
    rw [mergeLoop_run]
    simp only [laid_replicate_append]
    split_ifs with hmore
    · rw [length_append, length_replicate] at hrow
      exact ih hmore (by omega) hbuf
    · exact ⟨buf, rfl, rfl, fun i => by rw [laid_of_le (not_lt.mp hmore), BitVec.or_zero]⟩

theorem zeroLoop_length (n out : ℕ) (buf : List Byte) : (zeroLoop n out buf).length = buf.length := by
  induction n generalizing out buf with
  | zero => rfl
  | succ n ih => rw [zeroLoop, ih, length_set]

theorem getD_set (h : out < buf.length) (b : Byte) (i : ℕ) :
    (buf.set out b).getD i 0#8 = if i = out then b else buf.getD i 0#8 := by
  simp only [getD_eq_getElem?_getD, getElem?_set]
  rcases eq_or_ne i out with rfl | hi
  · simp [h]
  · simp [hi, hi.symm]

theorem zeroLoop_getD (h : out + n ≤ buf.length) (i : ℕ) :
    (zeroLoop n out buf).getD i 0#8 = if out ≤ i ∧ i < out + n then 0#8 else buf.getD i 0#8 := by
  induction n generalizing out buf with
  | zero => rw [zeroLoop, if_neg (by omega)]
  | succ n ih =>
    rw [zeroLoop, ih (by rw [length_set]; omega), getD_set (by omega)]
    rcases lt_trichotomy i out with hi | rfl | hi
    · rw [if_neg (by omega), if_neg (by omega), if_neg (by omega)]
    · rw [if_neg (by omega), if_pos rfl, if_pos (by omega)]
    · rw [if_neg (by omega : ¬i = out)]
      simp only [show out + 1 ≤ i ∧ i < out + 1 + n ↔ out ≤ i ∧ i < out + (n + 1) by omega]

theorem replaceLoop_byte (hb : b ≠ 0#8) (h : out < buf.length) (inp : List Byte) :
    replaceLoop row (b :: inp) out buf =
      if out + 1 < row then replaceLoop row inp (out + 1) (buf.set out b)
      else some (buf.set out b) := by
  cases inp <;> simp [replaceLoop, hb, h]

theorem replaceLoop_run (h : out < row) (c : Byte) (inp buf : List Byte) :
    replaceLoop row (0#8 :: c :: inp) out buf =
      if out + c.toNat < row then replaceLoop row inp (out + c.toNat) (zeroLoop c.toNat out buf)
      else some (zeroLoop (min c.toNat (row - out)) out buf) := by
  simp only [replaceLoop, ne_eq, not_true_eq_false, if_false]
  by_cases hc : out + c.toNat > row
  · rw [if_pos hc, if_neg (by omega), if_neg (by omega), min_eq_right (by omega)]
  · rw [if_neg hc, min_eq_left (by omega)]

/-- What plain decompression does: the row replaces what was in the buffer. -/
theorem replaceLoop_spec (hout : out < row) (hrow : row ≤ out + (expand inp).length) (hbuf : row ≤ buf.length) :
    ∃ buf', replaceLoop row inp out buf = some buf' ∧ buf'.length = buf.length ∧
      ∀ i, buf'.getD i 0#8 =
        if out ≤ i ∧ i < row then laid row out (expand inp) i else buf.getD i 0#8 := by
  induction inp using expand.induct generalizing out buf with
  | case1 => simp at hrow; omega
  | case2 b inp hb ih =>
    have hlt : out < buf.length := hout.trans_le hbuf
    rw [expand_cons_of_ne hb] at hrow ⊢
    rw [replaceLoop_byte hb hlt]
    split_ifs with hmore
    · rw [length_cons] at hrow
      have hbuf' : row ≤ (buf.set out b).length := by simpa using hbuf
      obtain ⟨buf', hrun, hlen, hget⟩ := ih hmore (by omega) hbuf'
      refine ⟨buf', hrun, by simpa using hlen, fun i => ?_⟩
      rw [hget, getD_set hlt, laid_cons hout]
      rcases eq_or_ne i out with rfl | hi
      · have hi : ¬(i + 1 ≤ i ∧ i < row) := by omega
        rw [if_neg hi, if_pos rfl, if_pos ⟨le_rfl, hout⟩, if_pos rfl, laid, if_neg hi, BitVec.or_zero]
      · simp only [if_neg hi, BitVec.zero_or, show out + 1 ≤ i ∧ i < row ↔ out ≤ i ∧ i < row by omega]
    · refine ⟨_, rfl, by simp, fun i => ?_⟩
      rw [getD_set hlt, laid_cons hout, laid_of_le (not_lt.mp hmore), BitVec.or_zero]
      simp only [show out ≤ i ∧ i < row ↔ i = out by omega]
      split_ifs <;> rfl
  | case3 b hb => simp [not_not.mp hb] at hrow; omega
  | case4 b hb c inp ih =>
    obtain rfl := not_not.mp hb
    rw [expand_zero_cons] at hrow ⊢
    rw [replaceLoop_run hout]
    simp only [laid_replicate_append]
    split_ifs with hmore
    · rw [length_append, length_replicate] at hrow
      have hbuf' : row ≤ (zeroLoop c.toNat out buf).length := by rwa [zeroLoop_length]
      obtain ⟨buf', hrun, hlen, hget⟩ := ih hmore (by omega) hbuf'
      refine ⟨buf', hrun, by rw [hlen, zeroLoop_length], fun i => ?_⟩
      rw [hget, zeroLoop_getD (by omega)]
      by_cases hi : out ≤ i ∧ i < out + c.toNat
      · rw [if_neg (by omega), if_pos hi, if_pos (by omega), laid, if_neg (by omega)]
      · simp only [if_neg hi, show out + c.toNat ≤ i ∧ i < row ↔ out ≤ i ∧ i < row by omega]
    · refine ⟨_, rfl, zeroLoop_length .., fun i => ?_⟩
      rw [zeroLoop_getD (by omega), laid_of_le (not_lt.mp hmore)]
      simp only [show out + min c.toNat (row - out) = row by omega]

/-! ## Clusters -/

theorem Model.row_le_pvsbytes (mod : Model) : mod.row ≤ mod.pvsbytes := by
  rw [row, pvsbytes]
  omega

theorem Model.visRow_none (h : mod.compressedVis m = none) :
    mod.visRow m = List.replicate mod.row 0xff := by
  rw [visRow, h]

theorem Model.visRow_some (h : mod.compressedVis m = some inp) : mod.visRow m = (expand inp).take mod.row := by
  rw [visRow, h]

variable (junk : ℕ → Byte)

theorem pvsbytes_le_grow (size : ℕ) (buf : List Byte) :
    size ≤ (grow junk size buf).length := by
  rw [grow]
  split_ifs with h
  · simp
  · exact not_lt.mp h

theorem grow_of_le {size : ℕ} (h : size ≤ buf.length) :
    grow junk size buf = buf := if_neg (not_lt.mpr h)

theorem getD_take {i : ℕ} (h : i < n) (xs : List Byte) : (xs.take n).getD i 0#8 = xs.getD i 0#8 := by
  simp [getD_eq_getElem?_getD, h]

theorem laid_zero (row : ℕ) (xs : List Byte) (i : ℕ) : laid row 0 xs i = (xs.take row).getD i 0#8 := by
  rw [laid, Nat.sub_zero]
  by_cases hi : i < row
  · rw [if_pos ⟨Nat.zero_le i, hi⟩, getD_take hi]
  · rw [if_neg (fun h => hi h.2), getD_eq_default _ _ ((length_take_le ..).trans (not_lt.mp hi))]

theorem getD_replicate_append_drop {i : ℕ} (c : Byte) (buf : List Byte) :
    (List.replicate n c ++ buf.drop n).getD i 0#8 = if i < n then c else buf.getD i 0#8 := by
  split_ifs with hi
  · rw [getD_append _ _ _ _ (by simpa using hi), getD_replicate _ hi]
  · rw [getD_append_right _ _ _ _ (by simpa using hi)]
    simp [getD_eq_getElem?_getD, show n + (i - n) = i by omega]

theorem Covers.of_or {buf' : List Byte} {x : ℕ → Byte}
    (h : ∀ i, buf'.getD i 0#8 = buf.getD i 0#8 ||| x i) : Covers buf' buf := by
  intro l hl
  rw [bit, h, BitVec.getLsbD_or]
  simpa [bit] using .inl hl

theorem Covers.of_or' {buf' vis : List Byte}
    (h : ∀ i, buf'.getD i 0#8 = buf.getD i 0#8 ||| vis.getD i 0#8) : Covers buf' vis := by
  intro l hl
  rw [bit, h, BitVec.getLsbD_or]
  simpa [bit] using .inr hl

theorem or_ff (b : Byte) : b ||| 0xff = 0xff := by
  rw [show (0xff : Byte) = BitVec.allOnes 8 from rfl, BitVec.or_allOnes]

/-- **Merging a cluster.** The bytes of the buffer are ORed with those of the row. -/
theorem clusterPVS_merge (hm : 0 < m)
    (hle : m ≤ mod.numclusters) (hrow : mod.HasRow m) (hbuf : mod.pvsbytes ≤ buf.length) :
    ∃ buf', clusterPVS junk mod ((m : ℤ) - 1) buf true = some buf' ∧ buf'.length = buf.length ∧
      ∀ i, buf'.getD i 0#8 = buf.getD i 0#8 ||| (mod.visRow m).getD i 0#8 := by
  have hlen : mod.row ≤ buf.length := mod.row_le_pvsbytes.trans hbuf
  have hpos : 0 < mod.row := by rw [Model.row]; omega
  rw [clusterPVS, if_neg (by omega), grow_of_le junk hbuf, show ((m : ℤ) - 1 + 1).toNat = m by omega]
  cases hvis : mod.compressedVis m with
  | none =>
    rw [decompressVis, ← Model.row, min_eq_left hlen, Model.visRow_none hvis]
    refine ⟨_, rfl, by simp [hlen], fun i => ?_⟩
    rw [getD_replicate_append_drop]
    split_ifs with hi
    · rw [getD_replicate _ hi, or_ff]
    · rw [getD_eq_default (List.replicate mod.row 0xff) _ (by simpa using hi), BitVec.or_zero]
  | some inp =>
    rw [decompressVis, ← Model.row, min_eq_left hlen, Model.visRow_some hvis, if_pos rfl]
    obtain ⟨buf', hrun, hlen', hget⟩ := mergeLoop_spec hpos
      (show mod.row ≤ 0 + (expand inp).length from (hrow inp hvis).trans (Nat.le_add_left ..)) hlen
    exact ⟨buf', hrun, hlen', fun i => by rw [hget, laid_zero]⟩

/-! ## Leafs near a viewpoint -/

/-- A plane with one of the first three types is perpendicular to that axis. -/
def Plane.Typed (p : Plane) : Prop := ∀ h : p.type < 3, p.normal = Pi.single ⟨p.type, h⟩ 1

/-- What a tree needs: leaf 0, which has no cluster, is solid, the others have a row, and the types of
the planes are right. -/
def Node.WellFormed (mod : Model) : Node → Prop
  | .leaf num contents =>
    contents.1 ≠ contentsSolid → 0 < num ∧ num ≤ mod.numclusters ∧ mod.HasRow num
  | .node plane c₀ c₁ => plane.Typed ∧ c₀.WellFormed mod ∧ c₁.WellFormed mod

/-- Leaf `m` is not solid, and every plane on the way to it is at distance at most 8 from the point or
has the leaf on the point's side. -/
inductive Node.Near (org : Vec) (m : ℕ) : Node → Prop
  | leaf {contents} : contents.1 ≠ contentsSolid → Near org m (.leaf m contents)
  | front {plane c₀ c₁} :
    |dotProduct org plane.normal - plane.dist| ≤ 8 ∨ 0 < dotProduct org plane.normal - plane.dist →
      Near org m c₀ → Near org m (.node plane c₀ c₁)
  | back {plane c₀ c₁} :
    |dotProduct org plane.normal - plane.dist| ≤ 8 ∨ dotProduct org plane.normal - plane.dist < 0 →
      Near org m c₁ → Near org m (.node plane c₀ c₁)

/-- The buffer grew by rows, and holds those of all leafs near the point. -/
structure Added (mod : Model) (org : Vec) (tree : Node) (buf buf' : List Byte) : Prop where
  length : buf'.length = buf.length
  keeps : Covers buf' buf
  near : ∀ m, tree.Near org m → Covers buf' (mod.visRow m)

/-- **Every leaf near the viewpoint is added.** -/
theorem addToFatPVS_spec (org : Vec) {tree : Node} (hwf : tree.WellFormed mod) (hbuf : mod.pvsbytes ≤ buf.length) :
    ∃ buf', addToFatPVS junk mod org tree buf = some buf' ∧ Added mod org tree buf buf' := by
  induction tree generalizing buf with
  | leaf num contents =>
    rw [addToFatPVS]
    split_ifs with hsolid
    · obtain ⟨hpos, hle, hrow⟩ := hwf hsolid
      obtain ⟨buf', hrun, hlen, hget⟩ := clusterPVS_merge junk hpos hle hrow hbuf
      exact ⟨buf', hrun, hlen, .of_or hget, fun m hm => by cases hm; exact .of_or' hget⟩
    · exact ⟨buf, rfl, rfl, fun _ => id, fun m hm => by cases hm; contradiction⟩
  | node plane c₀ c₁ ih₀ ih₁ =>
    obtain ⟨-, hwf₀, hwf₁⟩ := hwf
    rw [addToFatPVS]
    set d := dotProduct org plane.normal - plane.dist with hd
    split_ifs with hfront hback
    · obtain ⟨buf', hrun, hlen, hkeeps, hnear⟩ := ih₀ hwf₀ hbuf
      refine ⟨buf', hrun, hlen, hkeeps, fun m hm => ?_⟩
      cases hm with
      | front _ hm => exact hnear m hm
      | back hd' _ =>
        rw [← hd, abs_le] at hd'
        rcases hd' with h | h <;> linarith
    · obtain ⟨buf', hrun, hlen, hkeeps, hnear⟩ := ih₁ hwf₁ hbuf
      refine ⟨buf', hrun, hlen, hkeeps, fun m hm => ?_⟩
      cases hm with
      | front hd' _ =>
        rw [← hd, abs_le] at hd'
        rcases hd' with h | h <;> linarith
      | back _ hm => exact hnear m hm
    · obtain ⟨mid, hrun₀, hlen₀, hkeeps₀, hnear₀⟩ := ih₀ hwf₀ hbuf
      obtain ⟨buf', hrun₁, hlen₁, hkeeps₁, hnear₁⟩ := ih₁ hwf₁ (hbuf.trans hlen₀.ge)
      refine ⟨buf', by rw [hrun₀, Option.bind_some, hrun₁], hlen₁.trans hlen₀,
        hkeeps₀.trans hkeeps₁, fun m hm => ?_⟩
      cases hm with
      | front _ hm => exact (hnear₀ m hm).trans hkeeps₁
      | back _ hm => exact hnear₁ m hm

theorem fatPVS_spec (org : Vec) (hwf : mod.nodes.WellFormed mod) (buf : List Byte) (add : Bool) :
    ∃ buf', fatPVS junk mod org buf add = some buf' ∧ mod.pvsbytes ≤ buf'.length ∧
      (add = true → mod.pvsbytes ≤ buf.length → Covers buf' buf) ∧
      ∀ m, mod.nodes.Near org m → Covers buf' (mod.visRow m) := by
  have hgrow := pvsbytes_le_grow junk mod.pvsbytes buf
  set start := if add then grow junk mod.pvsbytes buf
    else memset 0#8 mod.pvsbytes (grow junk mod.pvsbytes buf) with hstart
  have hlen : mod.pvsbytes ≤ start.length := by
    rw [hstart]
    split_ifs
    · exact hgrow
    · simp [memset]
  obtain ⟨buf', hrun, hlen', hkeeps, hnear⟩ := addToFatPVS_spec junk org hwf hlen
  refine ⟨buf', hrun, hlen.trans hlen'.ge, fun hadd hbuf => ?_, hnear⟩
  rwa [hstart, if_pos hadd, grow_of_le junk hbuf] at hkeeps

/-- The set of several viewpoints: that of the first, and the others added to it. -/
def fatPVSOf (junk : ℕ → Byte) (mod : Model) (buf : List Byte) : Vec → List Vec → Option (List Byte)
  | org, more => (fatPVS junk mod org buf false).bind fun buf =>
      more.foldlM (fun buf org => fatPVS junk mod org buf true) buf

theorem foldlM_fatPVS (hwf : mod.nodes.WellFormed mod) (more : List Vec) (hbuf : mod.pvsbytes ≤ buf.length) :
    ∃ buf', more.foldlM (fun buf org => fatPVS junk mod org buf true) buf = some buf' ∧
      mod.pvsbytes ≤ buf'.length ∧ Covers buf' buf ∧
      ∀ org ∈ more, ∀ m, mod.nodes.Near org m → Covers buf' (mod.visRow m) := by
  induction more generalizing buf with
  | nil => exact ⟨buf, rfl, hbuf, fun _ => id, by simp⟩
  | cons org more ih =>
    obtain ⟨mid, hrun, hmid, hkeeps, hnear⟩ := fatPVS_spec junk org hwf buf true
    obtain ⟨buf', hrun', hlen, hkeeps', hnear'⟩ := ih hmid
    refine ⟨buf', by rw [foldlM_cons, hrun]; exact hrun', hlen,
      (hkeeps rfl hbuf).trans hkeeps', fun o ho m hm => ?_⟩
    rcases mem_cons.mp ho with rfl | ho
    · exact (hnear m hm).trans hkeeps'
    · exact hnear' o ho m hm

theorem fatPVSOf_spec (hwf : mod.nodes.WellFormed mod) (buf : List Byte) (org : Vec) (more : List Vec) :
    ∃ pvs, fatPVSOf junk mod buf org more = some pvs ∧ mod.pvsbytes ≤ pvs.length ∧
      ∀ o ∈ org :: more, ∀ m, mod.nodes.Near o m → Covers pvs (mod.visRow m) := by
  obtain ⟨mid, hrun, hmid, -, hnear⟩ := fatPVS_spec junk org hwf buf false
  obtain ⟨pvs, hrun', hlen, hkeeps, hnear'⟩ := foldlM_fatPVS junk hwf more hmid
  refine ⟨pvs, by rw [fatPVSOf, hrun]; exact hrun', hlen, fun o ho m hm => ?_⟩
  rcases mem_cons.mp ho with rfl | ho
  · exact (hnear m hm).trans hkeeps
  · exact hnear' o ho m hm

/-! ## Leafs that a box touches -/

/-- A box has points strictly in front of a plane, or is in front and may rest on it. -/
def Plane.ReachesFront (p : Plane) (box : Set Vec) : Prop :=
  (∃ x ∈ box, p.dist < dotProduct p.normal x) ∨
    (∃ x, x ∈ box) ∧ ∀ x ∈ box, p.dist ≤ dotProduct p.normal x

/-- A box has points strictly behind a plane. -/
def Plane.ReachesBack (p : Plane) (box : Set Vec) : Prop := ∃ x ∈ box, dotProduct p.normal x < p.dist

/-- Leaf `m` is not solid, and the box reaches its side of every plane on the way to it. -/
inductive Node.Touched (box : Set Vec) (m : ℕ) : Node → Prop
  | leaf {contents} : contents.1 ≠ contentsSolid → Touched box m (.leaf m contents)
  | front {plane c₀ c₁} : plane.ReachesFront box → Touched box m c₀ → Touched box m (.node plane c₀ c₁)
  | back {plane c₀ c₁} : plane.ReachesBack box → Touched box m c₁ → Touched box m (.node plane c₀ c₁)

theorem dotProduct_single (i : Fin 3) (x : Vec) : dotProduct (Pi.single i 1) x = x i := by
  fin_cases i <;> simp [dotProduct]

/-- The corner picked by the signs of the normal is the farthest point of the box along it, and the
other one the nearest. -/
theorem dotProduct_le_corner {x : Vec} (hx : x ∈ Set.Icc mins maxs) (p : Plane) :
    dotProduct p.normal x ≤ (cornerDists mins maxs p).1 ∧
      (cornerDists mins maxs p).2 ≤ dotProduct p.normal x := by
  have hterm : ∀ j, p.normal j * x j ≤ p.normal j * (if p.signbits j then mins j else maxs j) ∧
      p.normal j * (if p.signbits j then maxs j else mins j) ≤ p.normal j * x j := by
    intro j
    obtain ⟨hmin, hmax⟩ := And.intro (hx.1 j) (hx.2 j)
    by_cases hj : p.normal j < 0
    · simp only [Plane.signbits, hj, decide_true, if_true]
      exact ⟨mul_le_mul_of_nonpos_left hmin hj.le, mul_le_mul_of_nonpos_left hmax hj.le⟩
    · simp only [Plane.signbits, hj, decide_false, Bool.false_eq_true, if_false]
      exact ⟨mul_le_mul_of_nonneg_left hmax (not_lt.mp hj), mul_le_mul_of_nonneg_left hmin (not_lt.mp hj)⟩
  obtain ⟨h₀, h₁, h₂⟩ := And.intro (hterm 0) (And.intro (hterm 1) (hterm 2))
  simp only [cornerDists, dotProduct]
  constructor <;> linarith [h₀.1, h₀.2, h₁.1, h₁.2, h₂.1, h₂.2]

theorem sides_front {p : Plane} (hp : p.Typed)
    (h : p.ReachesFront (Set.Icc mins maxs)) : (boxOnPlaneSideMacro mins maxs p).1 = true := by
  rw [boxOnPlaneSideMacro]
  split_ifs with htype hmin hmax
  · rfl
  · simp only [Plane.ReachesFront, hp htype, dotProduct_single] at h
    rcases h with ⟨x, hx, hlt⟩ | ⟨⟨x, hx⟩, hall⟩
    · exact absurd ((hx.2 _).trans hmax) (not_le.mpr hlt)
    · exact absurd (hall mins ⟨le_rfl, hx.1.trans hx.2⟩) hmin
  · rfl
  · rw [boxOnPlaneSide, decide_eq_true_eq]
    rcases h with ⟨x, hx, hlt⟩ | ⟨⟨x, hx⟩, hall⟩
    · exact hlt.le.trans (dotProduct_le_corner hx p).1
    · exact (hall x hx).trans (dotProduct_le_corner hx p).1

theorem sides_back {p : Plane} (hp : p.Typed)
    (h : p.ReachesBack (Set.Icc mins maxs)) : (boxOnPlaneSideMacro mins maxs p).2 = true := by
  obtain ⟨x, hx, hlt⟩ := h
  rw [boxOnPlaneSideMacro]
  split_ifs with htype hmin hmax
  · rw [hp htype, dotProduct_single] at hlt
    exact absurd (hmin.trans (hx.1 _)) (not_le.mpr hlt)
  · rfl
  · rfl
  · rw [boxOnPlaneSide, decide_eq_true_eq]
    exact (dotProduct_le_corner hx p).2.trans_lt hlt

/-- What has been linked: too many leafs, or leafs with a cluster and every one of `touched`. -/
structure Linked (mod : Model) (touched : ℕ → Prop) (ent : PvsCache) : Prop where
  length : 0 ≤ ent.num_leafs → ent.num_leafs = ent.leafnums.length
  clusters : 0 ≤ ent.num_leafs → ∀ l ∈ ent.leafnums, 0 ≤ l ∧ l < mod.numclusters
  touched : 0 ≤ ent.num_leafs → ∀ m, touched m → (m : ℤ) - 1 ∈ ent.leafnums

theorem Linked.of_neg {touched : ℕ → Prop} (h : ent.num_leafs < 0) :
    Linked mod touched ent :=
  ⟨fun h' => absurd h (not_lt.mpr h'), fun h' => absurd h (not_lt.mpr h'),
    fun h' => absurd h (not_lt.mpr h')⟩

theorem Linked.mono {touched touched' : ℕ → Prop}
    (h : Linked mod touched ent) (hsub : ∀ m, touched' m → touched m) : Linked mod touched' ent :=
  ⟨h.length, h.clusters, fun h' m hm => h.touched h' m (hsub m hm)⟩

theorem Linked.leaf {box : Set Vec} {touched : ℕ → Prop} {num : ℕ}
    {contents : {c : ℤ // c < 0}} (hwf : (Node.leaf num contents).WellFormed mod)
    (hsolid : contents.1 ≠ contentsSolid) (hent : 0 ≤ ent.num_leafs) (h : Linked mod touched ent) :
    Linked mod (fun m => touched m ∨ (Node.leaf num contents).Touched box m)
      { num_leafs := ent.num_leafs + 1, leafnums := ent.leafnums ++ [(num : ℤ) - 1] } := by
  obtain ⟨hpos, hle, -⟩ := hwf hsolid
  refine ⟨fun _ => ?_, fun _ l hl => ?_, fun _ m hm => ?_⟩
  · simp [h.length hent]
  · rcases mem_append.mp hl with hl | hl
    · exact h.clusters hent l hl
    · rw [mem_singleton.mp hl]
      omega
  · rw [mem_append]
    rcases hm with hm | hm
    · exact .inl (h.touched hent m hm)
    · cases hm
      exact .inr (mem_singleton.mpr rfl)

theorem rFindTouchedLeafs_spec {tree : Node}
    (hwf : tree.WellFormed mod) {touched : ℕ → Prop} (h : Linked mod touched ent) :
    Linked mod (fun m => touched m ∨ tree.Touched (Set.Icc mins maxs) m)
      (rFindTouchedLeafs mins maxs tree ent) := by
  induction tree generalizing touched ent with
  | leaf num contents =>
    rw [rFindTouchedLeafs]
    split_ifs with hsolid hfull
    · refine h.mono fun m hm => hm.elim id fun hm => ?_
      cases hm
      contradiction
    · exact .of_neg (by simp)
    · exact h.leaf hwf hsolid (by omega)
  | node plane c₀ c₁ ih₀ ih₁ =>
    obtain ⟨htyped, hwf₀, hwf₁⟩ := hwf
    rw [rFindTouchedLeafs]
    set ent₀ := if (boxOnPlaneSideMacro mins maxs plane).1 then rFindTouchedLeafs mins maxs c₀ ent else ent with hent₀
    have hfront : Linked mod (fun m => touched m ∨
        plane.ReachesFront (Set.Icc mins maxs) ∧ c₀.Touched (Set.Icc mins maxs) m) ent₀ := by
      rw [hent₀]
      split_ifs with hside
      · exact (ih₀ hwf₀ h).mono fun m => Or.imp_right And.right
      · exact h.mono fun m hm => hm.elim id fun hm => absurd (sides_front htyped hm.1) hside
    split_ifs with hside
    · refine (ih₁ hwf₁ hfront).mono fun m hm => ?_
      rcases hm with hm | hm
      · exact .inl (.inl hm)
      · cases hm with
        | front hreach hm => exact .inl (.inr ⟨hreach, hm⟩)
        | back _ hm => exact .inr hm
    · refine hfront.mono fun m hm => ?_
      rcases hm with hm | hm
      · exact .inl hm
      · cases hm with
        | front hreach hm => exact .inr ⟨hreach, hm⟩
        | back hreach _ => exact absurd (sides_back htyped hreach) hside

/-- **Every leaf the box touches is linked**, or the entity has too many leafs. -/
theorem findTouchedLeafs_spec (hwf : mod.nodes.WellFormed mod) (mins maxs : Vec) :
    Linked mod (mod.nodes.Touched (Set.Icc mins maxs)) (findTouchedLeafs mod mins maxs) := by
  have hempty : Linked mod (fun _ => False) { num_leafs := 0, leafnums := [] } :=
    ⟨fun _ => rfl, fun _ => by simp, fun _ _ => False.elim⟩
  exact (rFindTouchedLeafs_spec hwf hempty).mono fun m => .inr

/-! ## Culling -/

theorem anyVisible_of_mem {pvs : List Byte} (hlen : n ≤ 8 * pvs.length) {leafnums : List ℤ}
    (hall : ∀ l ∈ leafnums, 0 ≤ l ∧ l < n) {l : ℕ} (hl : (l : ℤ) ∈ leafnums)
    (hbit : bit pvs l = true) : anyVisible pvs leafnums = some true := by
  induction leafnums with
  | nil => simp at hl
  | cons k rest ih =>
    obtain ⟨hk, hkn⟩ := hall k (by simp)
    have hget : pvs[k.toNat / 8]? = some (pvs.getD (k.toNat / 8) 0#8) := by
      rw [getD_eq_getElem?_getD, getElem?_eq_getElem (by omega), Option.getD_some]
    rw [anyVisible, if_neg (not_lt.mpr hk), hget]
    dsimp only
    split_ifs with htest
    · rfl
    · rcases mem_cons.mp hl with rfl | hl
      · rw [Int.toNat_natCast, BitFlags.and_shl_one_ne_zero _ (Nat.mod_lt _ (by decide))] at htest
        exact absurd hbit htest
      · exact ih (fun k hk => hall k (mem_cons_of_mem _ hk)) hl

/-- Two leafs on both sides of a plane of type 0, each of which sees itself only. -/
def twoRooms (normal : Vec) : Model :=
  { nodes := .node ⟨normal, 0, 0⟩ (.leaf 1 ⟨-1, by decide⟩) (.leaf 2 ⟨-1, by decide⟩)
    numclusters := 2
    compressedVis := fun m => if m = 1 then some [1] else some [2] }

theorem twoRooms_wellFormed : (twoRooms ![1, 0, 0]).nodes.WellFormed (twoRooms ![1, 0, 0]) := by
  have hrow : ∀ m, (twoRooms ![1, 0, 0]).HasRow m := by
    intro m inp h
    rw [twoRooms] at h
    dsimp only at h
    split_ifs at h <;> cases h <;> decide
  refine ⟨fun _ => ?_, fun _ => ⟨by decide, by decide, hrow 1⟩, fun _ => ⟨by decide, by decide, hrow 2⟩⟩
  ext j
  fin_cases j <;> rfl

/-- **No entity is culled that may be seen.** In a well formed tree, when a leaf near one of the
viewpoints sees a leaf that the box of an entity touches, the entity is in the set of the viewpoints. -/
theorem edictInFatPVS_of_visible (junk : ℕ → Byte) {mod : Model} (hwf : mod.nodes.WellFormed mod)
    (buf : List Byte) (org : Vec) (more : List Vec) (mins maxs : Vec) {o : Vec} (ho : o ∈ org :: more)
    {m n : ℕ} (hnear : mod.nodes.Near o m) (hsees : mod.Sees m n)
    (htouched : mod.nodes.Touched (Set.Icc mins maxs) n) :
    ∃ pvs, fatPVSOf junk mod buf org more = some pvs ∧
      edictInFatPVS (findTouchedLeafs mod mins maxs) pvs = some true := by
  obtain ⟨pvs, hrun, hlen, hcovers⟩ := fatPVSOf_spec junk hwf buf org more
  refine ⟨pvs, hrun, ?_⟩
  have hlinked := findTouchedLeafs_spec hwf mins maxs
  rw [edictInFatPVS]
  split_ifs with hmany
  · rfl
  · obtain ⟨l, hl, rfl, hbit⟩ := hsees
    have hent := not_lt.mp hmany
    have hmem := hlinked.touched hent _ htouched
    rw [Nat.cast_succ, add_sub_cancel_right] at hmem
    have hbytes : mod.numclusters ≤ 8 * pvs.length := by
      have := mod.row_le_pvsbytes.trans hlen
      rw [Model.row] at this
      omega
    exact anyVisible_of_mem hbytes (hlinked.clusters hent) hmem (hcovers o ho m hnear l hbit)

theorem edictInFatPVS_twoRooms :
    ∃ pvs, fatPVSOf (fun _ => 0) (twoRooms ![1, 0, 0]) [] ![100, 0, 0] [![-100, 0, 0]] = some pvs ∧
      edictInFatPVS (findTouchedLeafs (twoRooms ![1, 0, 0]) ![-3, 0, 0] ![-1, 1, 1]) pvs = some true :=
  edictInFatPVS_of_visible _ twoRooms_wellFormed [] _ _ _ _ (o := ![-100, 0, 0]) (by simp)
    (.back (.inr (by simp [dotProduct])) (.leaf (by decide))) ⟨1, Nat.one_lt_two, rfl, rfl⟩
    (.back ⟨![-3, 0, 0], ⟨le_rfl, fun j => by fin_cases j <;> norm_num⟩, by simp [dotProduct]⟩
      (.leaf (by decide)))

/-- Behind the plane one sees leaf 2. A box that rests on the plane has a point there, and a plane of
type 0 that is not perpendicular to the first axis may have a whole box behind it; neither box is
linked to leaf 2. -/
theorem edictInFatPVS_misses :
    (leafnumForPoint ![0, 0, 0] (twoRooms ![1, 0, 0]).nodes = 2 ∧
      ![0, 0, 0] ∈ Set.Icc (![0, 0, 0] : Vec) ![1, 1, 1] ∧
      (twoRooms ![1, 0, 0]).nodes.Near ![-100, 0, 0] 2 ∧ (twoRooms ![1, 0, 0]).Sees 2 2 ∧
      (fatPVS (fun _ => 0) (twoRooms ![1, 0, 0]) ![-100, 0, 0] [] false).bind
        (edictInFatPVS (findTouchedLeafs (twoRooms ![1, 0, 0]) ![0, 0, 0] ![1, 1, 1])) = some false) ∧
    ((twoRooms ![0, 1, 0]).nodes.Touched (Set.Icc (![5, -3, 0] : Vec) ![6, -2, 1]) 2 ∧
      (twoRooms ![0, 1, 0]).nodes.Near ![0, -100, 0] 2 ∧ (twoRooms ![0, 1, 0]).Sees 2 2 ∧
      (fatPVS (fun _ => 0) (twoRooms ![0, 1, 0]) ![0, -100, 0] [] false).bind
        (edictInFatPVS (findTouchedLeafs (twoRooms ![0, 1, 0]) ![5, -3, 0] ![6, -2, 1])) = some false) := by
  have hsees : ∀ normal, (twoRooms normal).Sees 2 2 := fun _ =>
    ⟨1, Nat.one_lt_two, rfl, by simp [twoRooms, Model.visRow, Model.row, expand, bit]⟩
  have hsolid : (-1 : ℤ) ≠ contentsSolid := by decide
  refine ⟨⟨?_, ?_, ?_, hsees _, ?_⟩, ?_, ?_, hsees _, ?_⟩
  · simp [leafnumForPoint, twoRooms, dotProduct]
  · exact ⟨le_rfl, fun j => by fin_cases j <;> simp⟩
  · exact .back (.inr (by simp [dotProduct])) (.leaf hsolid)
  · decide +kernel
  · exact .back ⟨![5, -3, 0], ⟨le_rfl, fun j => by fin_cases j <;> norm_num⟩, by simp [dotProduct]⟩
      (.leaf hsolid)
  · exact .back (.inr (by simp [dotProduct])) (.leaf hsolid)
  · decide +kernel

end Q1Bsp

end FteQuake
