import FteQuake.Common.BihClip
import FteQuake.Lib.CullingWalk
import Mathlib.Data.Fintype.Order
import Mathlib.Data.List.FinRange
import Mathlib.Data.List.Perm.Basic
import Mathlib.Tactic.FinCases

/-!
# Bounding interval hierarchies

`BIH_Build`, `BIH_TestContents` and `BIH_RecursiveTrace` of `com_bih.c`, for leaves that are brushes and triangles. The
leaves of a tree are those that it was built from, and every node on the way to a leaf has bounds that hold the leaf's
(`buildNode_holds`).

So the contents at a point are those of all the leaves (`testContents_build`), and a trace goes as far as one that clips
the move against every leaf (`recursiveTrace_eq`) where the box is in a leaf only at positions from which it reaches the
leaf's bounds. A brush need not be so: `BIH_ClipBoxToBrush` has no planes for the extents of a brush as
`BIH_ClipToTriangle` has for those of a triangle.
-/

namespace FteQuake

open CullingWalk List

namespace Bih

/-! ## Leaves and nodes -/

/-- `struct bihleaf_s`. -/
structure Leaf where
  mins : Vec
  maxs : Vec
  data : Data

/-- `struct bihnode_s`, with the nodes that it refers to. -/
inductive Node
  | leaf (data : Data)
  | group (numchildren : ℕ) (child : Fin numchildren → Node)
  | axis (axis : Fin 3) (child : Fin 2 → Node) (cmin cmax : Fin 2 → ℚ)

/-! ## Building -/

/-- `BIH_Sort_X`, `BIH_Sort_Y` and `BIH_Sort_Z`. -/
def sortCmp (axis : Fin 3) (a b : Leaf) : ℤ :=
  let am := a.maxs axis + a.mins axis
  let bm := b.maxs axis + b.mins axis
  if am < bm then -1 else if bm < am then 1 else 0

/-- The merges of runs of `2 ^ k` leaves. -/
def mergeRuns (cmp : Leaf → Leaf → ℤ) (k : ℕ) (leafs : List Leaf) : List Leaf :=
  if leafs = [] then []
  else
    List.merge (leafs.take (2 ^ k)) ((leafs.drop (2 ^ k)).take (2 ^ k)) (fun a b => decide (cmp a b ≤ 0)) ++
      mergeRuns cmp k (leafs.drop (2 ^ k * 2))
termination_by leafs.length
decreasing_by
  have hpos : 0 < 2 ^ k := Nat.two_pow_pos k
  have hlen : 0 < leafs.length := List.length_pos_of_ne_nil (by assumption)
  rw [List.length_drop]
  omega

/-- The passes of `BIH_SortLeafs`, from runs of `2 ^ k` leaves on. -/
def sortPasses (cmp : Leaf → Leaf → ℤ) (numleafs k : ℕ) (leafs : List Leaf) : List Leaf :=
  if 2 ^ k < numleafs then sortPasses cmp numleafs (k + 1) (mergeRuns cmp k leafs) else leafs
termination_by numleafs - 2 ^ k
decreasing_by
  have hpos : 0 < 2 ^ k := Nat.two_pow_pos k
  rw [Nat.pow_succ]
  omega

/-- `BIH_SortLeafs`. -/
def sortLeafs (cmp : Leaf → Leaf → ℤ) (leafs : List Leaf) : List Leaf := sortPasses cmp leafs.length 0 leafs

/-- The bounds of leaves, the first of which is given. -/
def leafBounds (first : Leaf) (rest : List Leaf) : Box :=
  rest.foldl (fun b ℓ => ⟨fun j => min (b.min j) (ℓ.mins j), fun j => max (b.max j) (ℓ.maxs j)⟩) ⟨first.mins, first.maxs⟩

/-- The axis that a node is split on: the most balanced one by counts. -/
def splitAxis (first : Leaf) (rest : List Leaf) : Fin 3 :=
  let bounds := leafBounds first rest
  let mid : Vec := fun j => (bounds.max j + bounds.min j) * (1 / 2)
  let onleft : Fin 3 → ℤ := fun j => (first :: rest).countP fun ℓ => decide (ℓ.maxs j < mid j)
  let onright : Fin 3 → ℤ := fun j => (first :: rest).countP fun ℓ => decide (ℓ.mins j < mid j)
  let weight : Fin 3 → ℤ := fun j => onleft j + onright j - |onleft j - onright j|
  if weight 1 < weight 0 ∧ weight 2 < weight 0 then 0 else if weight 2 < weight 1 then 1 else 2

/-- The bounds of a leaf's node: they are a unit wider. -/
def Leaf.bounds (ℓ : Leaf) : Box := ⟨fun i => ℓ.mins i - 1, fun i => ℓ.maxs i + 1⟩

/-- A box with those of another one added. -/
def Box.join (b c : Box) : Box := addPointToBounds c.max (addPointToBounds c.min b)

variable (cmp : Leaf → Leaf → ℤ)

theorem mergeRuns_perm (k : ℕ) (leafs : List Leaf) : (mergeRuns cmp k leafs).Perm leafs := by
  induction hn : leafs.length using Nat.strong_induction_on generalizing leafs with
  | h n ih =>
    rw [mergeRuns]
    by_cases hnil : leafs = []
    · rw [if_pos hnil, hnil]
    rw [if_neg hnil]
    have hlen : 0 < leafs.length := length_pos_of_ne_nil hnil
    have hpos : 0 < 2 ^ k := Nat.two_pow_pos k
    have hrest := ih _ (by rw [length_drop]; omega) (leafs.drop (2 ^ k * 2)) rfl
    refine (List.Perm.append (merge_perm_append _) hrest).trans (List.Perm.of_eq ?_)
    rw [Nat.mul_two, ← drop_drop, append_assoc, take_append_drop, take_append_drop]

theorem sortPasses_perm (numleafs k : ℕ) (leafs : List Leaf) :
    (sortPasses cmp numleafs k leafs).Perm leafs := by
  induction hn : numleafs - 2 ^ k using Nat.strong_induction_on generalizing k leafs with
  | h n ih =>
    rw [sortPasses]
    by_cases hlt : 2 ^ k < numleafs
    · rw [if_pos hlt]
      have hpos : 0 < 2 ^ k := Nat.two_pow_pos k
      exact (ih _ (by rw [Nat.pow_succ]; omega) (k + 1) _ rfl).trans (mergeRuns_perm cmp k leafs)
    · rw [if_neg hlt]

/-- Sorting loses no leaf. -/
theorem sortLeafs_perm (leafs : List Leaf) : (sortLeafs cmp leafs).Perm leafs :=
  sortPasses_perm cmp leafs.length 0 leafs

/-- `BIH_BuildNode`, which is not called without leaves. -/
def buildNode (leafs : List Leaf) : Node × Box :=
  match leafs with
  | [] => (.group 0 nofun, clearBounds)
  | first :: rest =>
    if rest = [] then (.leaf first.data, first.bounds)
    else if 8 ≤ (first :: rest).length then
      let numleft := (first :: rest).length / 2
      let axis := splitAxis first rest
      let sorted := sortLeafs (sortCmp axis) (first :: rest)
      let left := buildNode (sorted.take numleft)
      let right := buildNode (sorted.drop numleft)
      (.axis axis ![left.1, right.1] ![left.2.min axis, right.2.min axis] ![left.2.max axis, right.2.max axis],
        left.2.join right.2)
    else
      (.group (first :: rest).length fun i => .leaf ((first :: rest).get i).data,
        rest.foldl (fun bounds ℓ => bounds.join ℓ.bounds) first.bounds)
termination_by leafs.length
decreasing_by
  all_goals
    have hlen := (sortLeafs_perm (sortCmp (splitAxis first rest)) (first :: rest)).length_eq
    simp only [List.length_take, List.length_drop, hlen]
    omega

/-- `BIH_Build`. -/
def build (leafs : List Leaf) : Node := if leafs = [] then .group 0 nofun else (buildNode leafs).1

/-! ## Contents -/

/-- What `BIH_TestContents` does at a leaf. -/
def Data.testContents (d : Data) (p : Vec) : BitVec 32 :=
  match d.solid with
  | .brush b =>
    if !boundsIntersect p p b.absmins b.absmaxs then 0
    else if b.brushside.any fun side => decide (0 < planeDiff p side) then 0
    else b.contents
  | .triangle _ => 0

/-- `BIH_TestContents`. -/
def testContents : Node → Vec → BitVec 32
  | .leaf d, p => d.testContents p
  | .group n child, p => (List.finRange n).foldl (fun contents i => contents ||| testContents (child i) p) 0
  | .axis axis child cmin cmax, p =>
    if cmin 0 ≤ p axis ∧ p axis ≤ cmax 0 then
      if cmin 1 ≤ p axis ∧ p axis ≤ cmax 1 then testContents (child 0) p ||| testContents (child 1) p
      else testContents (child 0) p
    else if cmin 1 ≤ p axis ∧ p axis ≤ cmax 1 then testContents (child 1) p
    else 0

/-! ## Traces -/

/-- What `BIH_RecursiveTrace` does at a leaf. -/
def Data.trace (env : Env) (mv : Move) (d : Data) (movesubbounds : Box) (tr : Trace) : Trace :=
  if d.contents &&& mv.hitcontents = 0 then tr
  else
    match d.solid with
    | .brush b =>
      if boundsIntersect b.absmins b.absmaxs movesubbounds.min movesubbounds.max then clipBoxToBrush env mv b tr else tr
    | .triangle t => clipToTriangle env mv d.contents t tr

/-- A box with other bounds on an axis. -/
def Box.on (b : Box) (axis : Fin 3) (min max : ℚ) : Box :=
  ⟨fun i => if i = axis then min else b.min i, fun i => if i = axis then max else b.max i⟩

/-- The bounds of the move between two fractions of it, as far as they are in its bounds so far. -/
def Move.clipBounds (mv : Move) (movesubbounds : Box) (nearfrac farfrac : ℚ) : Box :=
  let points0 := mv.position nearfrac
  let points1 := mv.position farfrac
  ⟨fun a => max (movesubbounds.min a) ((if points1 a < points0 a then points1 a else points0 a) - mv.expand a),
    fun a => min (movesubbounds.max a) ((if points1 a < points0 a then points0 a else points1 a) + mv.expand a)⟩

/-- A child that a move goes through, as it comes from the bound `near` of it and leaves at `far`. -/
def Move.visit (mv : Move) (axis : Fin 3) (near far : ℚ) (rec : Box → Box → Trace → Trace)
    (movesubbounds bounds : Box) (tr : Trace) : Trace :=
  if !boundsIntersect movesubbounds.min movesubbounds.max bounds.min bounds.max then tr
  else
    let nearfrac := (near - mv.startpos axis) / mv.totalmove axis
    if nearfrac ≤ tr.truefraction then
      let farfrac := (far - mv.startpos axis) / mv.totalmove axis
      rec (mv.clipBounds movesubbounds nearfrac farfrac) bounds tr
    else tr

/-- `BIH_RecursiveTrace`. -/
def recursiveTrace (env : Env) (mv : Move) : Node → Box → Box → Trace → Trace
  | .leaf d, movesubbounds, _, tr => d.trace env mv movesubbounds tr
  | .group n child, movesubbounds, nodebox, tr =>
    (List.finRange n).foldl (fun tr i => recursiveTrace env mv (child i) movesubbounds nodebox tr) tr
  | .axis axis child cmin cmax, movesubbounds, nodebox, tr =>
    let min := fun c => cmin c - mv.expand axis
    let max := fun c => cmax c + mv.expand axis
    if mv.totalmove axis = 0 then
      [0, 1].foldl (fun tr c =>
        if min c ≤ mv.startpos axis ∧ mv.startpos axis ≤ max c then
          recursiveTrace env mv (child c) movesubbounds (nodebox.on axis (min c) (max c)) tr
        else tr) tr
    else if mv.negativedir axis then
      [1, 0].foldl (fun tr c =>
        mv.visit axis (max c) (min c) (recursiveTrace env mv (child c)) movesubbounds
          (nodebox.on axis (min c) (max c)) tr) tr
    else
      [0, 1].foldl (fun tr c =>
        mv.visit axis (min c) (max c) (recursiveTrace env mv (child c)) movesubbounds
          (nodebox.on axis (min c) (max c)) tr) tr

/-- What is in the leaves of a tree, in the order in which a trace comes to them. -/
def leavesInOrder (mv : Move) : Node → List Data
  | .leaf d => [d]
  | .group n child => (List.finRange n).flatMap fun i => leavesInOrder mv (child i)
  | .axis axis child _ _ =>
    (if mv.totalmove axis ≠ 0 ∧ mv.negativedir axis then [1, 0] else [0, 1]).flatMap fun c => leavesInOrder mv (child c)

/-- A move is clipped against every leaf of a tree, with no test of bounds. -/
def clipEvery (env : Env) (mv : Move) (node : Node) (tr : Trace) : Trace :=
  (leavesInOrder mv node).foldl (fun tr d => clipData env mv d tr) tr

/-! ## What a tree holds -/

/-- A tree is one of these leaves, and every node is about the leaves that its children hold. -/
inductive Holds : List Leaf → Node → Prop
  | leaf (ℓ : Leaf) : Holds [ℓ] (.leaf ℓ.data)
  | group (leafs : List Leaf) : Holds leafs (.group leafs.length fun i => .leaf (leafs.get i).data)
  | axis {leafs : Fin 2 → List Leaf} {axis : Fin 3} {child : Fin 2 → Node} {cmin cmax : Fin 2 → ℚ}
    (hchild : ∀ c, Holds (leafs c) (child c))
    (hbounds : ∀ c, ∀ ℓ ∈ leafs c, cmin c ≤ ℓ.bounds.min axis ∧ ℓ.bounds.max axis ≤ cmax c) :
    Holds (leafs 0 ++ leafs 1) (.axis axis child cmin cmax)

/-- A box holds another one. -/
def Box.Covers (b c : Box) : Prop := ∀ i, b.min i ≤ c.min i ∧ c.max i ≤ b.max i

theorem Box.covers_join_left (b c : Box) : (b.join c).Covers b := fun _ =>
  ⟨(min_le_left _ _).trans (min_le_left _ _), (le_max_left _ _).trans (le_max_left _ _)⟩

theorem Box.covers_join_right (b c : Box) : (b.join c).Covers c := fun _ =>
  ⟨(min_le_left _ _).trans (min_le_right _ _), le_max_right _ _⟩

theorem Box.Covers.trans {b c d : Box} (h : b.Covers c) (h' : c.Covers d) : b.Covers d := fun i =>
  ⟨(h i).1.trans (h' i).1, (h' i).2.trans (h i).2⟩

theorem Box.covers_refl (b : Box) : b.Covers b := fun _ => ⟨le_rfl, le_rfl⟩

/-- The bounds of a group. -/
theorem foldl_covers (rest : List Leaf) (b : Box) :
    (rest.foldl (fun bounds ℓ => bounds.join ℓ.bounds) b).Covers b ∧
      ∀ ℓ ∈ rest, (rest.foldl (fun bounds ℓ => bounds.join ℓ.bounds) b).Covers ℓ.bounds := by
  induction rest generalizing b with
  | nil => exact ⟨b.covers_refl, nofun⟩
  | cons ℓ rest ih =>
    obtain ⟨hb, hrest⟩ := ih (b.join ℓ.bounds)
    refine ⟨hb.trans (b.covers_join_left ℓ.bounds), fun m hm => ?_⟩
    rcases mem_cons.mp hm with rfl | hm
    · exact hb.trans (b.covers_join_right m.bounds)
    · exact hrest m hm

variable {leafs : List Leaf}

/-- What `BIH_BuildNode` makes holds the leaves, and its bounds hold theirs. -/
theorem buildNode_holds (hne : leafs ≠ []) : ∃ order, order.Perm leafs ∧
    Holds order (buildNode leafs).1 ∧ ∀ ℓ ∈ leafs, (buildNode leafs).2.Covers ℓ.bounds := by
  induction hn : leafs.length using Nat.strong_induction_on generalizing leafs with
  | h n ih =>
    cases leafs with
    | nil => exact absurd rfl hne
    | cons first rest =>
      rw [buildNode]
      by_cases hone : rest = []
      · rw [if_pos hone, hone]
        refine ⟨[first], .refl _, .leaf first, fun ℓ hℓ => ?_⟩
        rw [mem_singleton.mp hℓ]
        exact first.bounds.covers_refl
      rw [if_neg hone]
      by_cases height : 8 ≤ (first :: rest).length
      · rw [if_pos height]
        dsimp only
        set axis := splitAxis first rest
        set sorted := sortLeafs (sortCmp axis) (first :: rest) with hsorted
        set numleft := (first :: rest).length / 2 with hnumleft
        have hperm : sorted.Perm (first :: rest) := sortLeafs_perm _ _
        have hlen := hperm.length_eq
        have hleft : (sorted.take numleft).length = numleft := by
          rw [length_take]
          omega
        have hright : (sorted.drop numleft).length = (first :: rest).length - numleft := by
          rw [length_drop, hlen]
        obtain ⟨ls, hls, hholdsl, hcoversl⟩ := ih numleft (by omega)
          (ne_nil_of_length_pos (by omega : 0 < (sorted.take numleft).length)) hleft
        obtain ⟨rs, hrs, hholdsr, hcoversr⟩ := ih ((first :: rest).length - numleft) (by omega)
          (ne_nil_of_length_pos (by omega : 0 < (sorted.drop numleft).length)) hright
        refine ⟨ls ++ rs, ?_, ?_, fun ℓ hℓ => ?_⟩
        · exact (hls.append hrs).trans ((List.Perm.of_eq (take_append_drop numleft sorted)).trans hperm)
        · refine @Holds.axis ![ls, rs] axis _ _ _ (fun c => ?_) fun c ℓ hℓ => ?_
          · match c with
            | 0 => exact hholdsl
            | 1 => exact hholdsr
          · match c with
            | 0 => exact hcoversl ℓ (hls.mem_iff.mp hℓ) axis
            | 1 => exact hcoversr ℓ (hrs.mem_iff.mp hℓ) axis
        · have hmem : ℓ ∈ sorted.take numleft ++ sorted.drop numleft := by
            rw [take_append_drop]
            exact hperm.mem_iff.mpr hℓ
          rcases mem_append.mp hmem with hmem | hmem
          · exact (Box.covers_join_left _ _).trans (hcoversl ℓ hmem)
          · exact (Box.covers_join_right _ _).trans (hcoversr ℓ hmem)
      · rw [if_neg height]
        obtain ⟨hfirst, hrest⟩ := foldl_covers rest first.bounds
        refine ⟨first :: rest, .refl _, .group (first :: rest), fun ℓ hℓ => ?_⟩
        rcases mem_cons.mp hℓ with rfl | hℓ
        · exact hfirst
        · exact hrest ℓ hℓ

theorem build_holds (hne : leafs ≠ []) : ∃ order, order.Perm leafs ∧ Holds order (build leafs) := by
  obtain ⟨order, hperm, hholds, -⟩ := buildNode_holds hne
  exact ⟨order, hperm, by rwa [build, if_neg hne]⟩

/-- The bounds of a leaf hold those of its brush, or its triangle. -/
def Leaf.Boxed (ℓ : Leaf) : Prop :=
  match ℓ.data.solid with
  | .brush b => ∀ i, ℓ.mins i ≤ b.absmins i ∧ b.absmaxs i ≤ ℓ.maxs i
  | .triangle t => ∀ i, ℓ.mins i ≤ t.tmins i ∧ t.tmaxs i ≤ ℓ.maxs i

/-! ## The contents at a point -/

theorem boundsIntersect_iff {mins1 maxs1 mins2 maxs2 : Vec} :
    boundsIntersect mins1 maxs1 mins2 maxs2 = true ↔ ∀ i, mins1 i ≤ maxs2 i ∧ mins2 i ≤ maxs1 i := by
  simp only [boundsIntersect, Bool.and_eq_true, decide_eq_true_eq, Fin.forall_fin_succ, Fin.isValue]
  constructor
  · rintro ⟨⟨⟨⟨⟨h0, h1⟩, h2⟩, h0'⟩, h1'⟩, h2'⟩
    exact ⟨⟨h0, h0'⟩, ⟨h1, h1'⟩, ⟨h2, h2'⟩, nofun⟩
  · rintro ⟨⟨h0, h0'⟩, ⟨h1, h1'⟩, ⟨h2, h2'⟩, -⟩
    exact ⟨⟨⟨⟨⟨h0, h1⟩, h2⟩, h0'⟩, h1'⟩, h2'⟩

/-- The contents of leaves at a point. -/
def orContents (leafs : List Leaf) (p : Vec) : BitVec 32 := leafs.foldr (fun ℓ contents => ℓ.data.testContents p ||| contents) 0

theorem orContents_append (ls rs : List Leaf) (p : Vec) :
    orContents (ls ++ rs) p = orContents ls p ||| orContents rs p := by
  induction ls with
  | nil => exact BitVec.zero_or.symm
  | cons ℓ ls ih =>
    change ℓ.data.testContents p ||| orContents (ls ++ rs) p = ℓ.data.testContents p ||| orContents ls p ||| orContents rs p
    rw [ih, BitVec.or_assoc]

theorem orContents_perm {ls rs : List Leaf} (h : ls.Perm rs) (p : Vec) : orContents ls p = orContents rs p := by
  induction h with
  | nil => rfl
  | cons ℓ _ ih => exact congrArg (ℓ.data.testContents p ||| ·) ih
  | swap ℓ m ls =>
    change m.data.testContents p ||| (ℓ.data.testContents p ||| orContents ls p) =
      ℓ.data.testContents p ||| (m.data.testContents p ||| orContents ls p)
    rw [← BitVec.or_assoc, ← BitVec.or_assoc, BitVec.or_comm (m.data.testContents p)]
  | trans _ _ ih ih' => exact ih.trans ih'

theorem foldl_or (leafs : List Leaf) (p : Vec) (contents : BitVec 32) :
    leafs.foldl (fun contents ℓ => contents ||| ℓ.data.testContents p) contents = contents ||| orContents leafs p := by
  induction leafs generalizing contents with
  | nil => exact BitVec.or_zero.symm
  | cons ℓ leafs ih =>
    rw [foldl_cons, ih, BitVec.or_assoc]
    rfl

/-- A leaf has contents only within its bounds. -/
theorem testContents_out {ℓ : Leaf} (hbox : ℓ.Boxed) {p : Vec} {axis : Fin 3}
    (hout : ¬(ℓ.bounds.min axis ≤ p axis ∧ p axis ≤ ℓ.bounds.max axis)) : ℓ.data.testContents p = 0 := by
  unfold Data.testContents
  unfold Leaf.Boxed at hbox
  cases hsolid : ℓ.data.solid with
  | triangle t => rfl
  | brush b =>
    rw [hsolid] at hbox
    dsimp only at hbox ⊢
    refine if_pos ?_
    rw [Bool.not_eq_true']
    refine eq_false_of_ne_true fun h => hout ?_
    obtain ⟨hmax, hmin⟩ := boundsIntersect_iff.mp h axis
    obtain ⟨hmin', hmax'⟩ := hbox axis
    simp only [Leaf.bounds]
    exact ⟨by linarith, by linarith⟩

theorem orContents_out (hbox : ∀ ℓ ∈ leafs, ℓ.Boxed) {p : Vec} {axis : Fin 3}
    (hout : ∀ ℓ ∈ leafs, ¬(ℓ.bounds.min axis ≤ p axis ∧ p axis ≤ ℓ.bounds.max axis)) : orContents leafs p = 0 := by
  induction leafs with
  | nil => rfl
  | cons ℓ leafs ih =>
    change ℓ.data.testContents p ||| orContents leafs p = 0
    rw [testContents_out (hbox ℓ (.head _)) (hout ℓ (.head _)),
      ih (fun m hm => hbox m (.tail _ hm)) fun m hm => hout m (.tail _ hm)]
    rfl

/-- The contents at a point are those of all the leaves that a tree holds. -/
theorem testContents_holds {node : Node} (h : Holds leafs node) (hbox : ∀ ℓ ∈ leafs, ℓ.Boxed) (p : Vec) :
    testContents node p = orContents leafs p := by
  induction h with
  | leaf ℓ => exact BitVec.or_zero.symm
  | group leafs =>
    have hfold : leafs.foldl (fun contents ℓ => contents ||| ℓ.data.testContents p) 0 = orContents leafs p :=
      (foldl_or leafs p 0).trans BitVec.zero_or
    rw [testContents, ← hfold]
    conv_rhs => rw [← map_get_finRange leafs, foldl_map]
    rfl
  | @axis leafs axis child cmin cmax _ hbounds ih =>
    have hboxc (c : Fin 2) : ∀ ℓ ∈ leafs c, ℓ.Boxed := fun ℓ hℓ => hbox ℓ <| by
      match c with
      | 0 => exact mem_append_left _ hℓ
      | 1 => exact mem_append_right _ hℓ
    have hout (c : Fin 2) (hc : ¬(cmin c ≤ p axis ∧ p axis ≤ cmax c)) : orContents (leafs c) p = 0 :=
      orContents_out (hboxc c) fun ℓ hℓ hin =>
        hc ⟨(hbounds c ℓ hℓ).1.trans hin.1, hin.2.trans (hbounds c ℓ hℓ).2⟩
    rw [testContents, orContents_append]
    by_cases h0 : cmin 0 ≤ p axis ∧ p axis ≤ cmax 0 <;> by_cases h1 : cmin 1 ≤ p axis ∧ p axis ≤ cmax 1
    · rw [if_pos h0, if_pos h1, ih 0 (hboxc 0), ih 1 (hboxc 1)]
    · rw [if_pos h0, if_neg h1, ih 0 (hboxc 0), hout 1 h1]
      exact BitVec.or_zero.symm
    · rw [if_neg h0, if_pos h1, ih 1 (hboxc 1), hout 0 h0]
      exact BitVec.zero_or.symm
    · rw [if_neg h0, if_neg h1, hout 0 h0, hout 1 h1]
      rfl

theorem testContents_build (hne : leafs ≠ []) (hbox : ∀ ℓ ∈ leafs, ℓ.Boxed) (p : Vec) :
    testContents (build leafs) p = orContents leafs p := by
  obtain ⟨order, hperm, hholds⟩ := build_holds hne
  rw [testContents_holds hholds (fun ℓ hℓ => hbox ℓ (hperm.mem_iff.mp hℓ)), orContents_perm hperm]

/-! ## Traces -/

/-- The tests of a leaf's bounds succeed for a box at a position. -/
def Leaf.Reached (mv : Move) (ℓ : Leaf) (x : Vec) : Prop :=
  match ℓ.data.solid with
  | .brush b => ∀ i, b.absmins i ≤ x i + mv.expand i ∧ x i - mv.expand i ≤ b.absmaxs i
  | .triangle t => (∀ i, ℓ.mins i ≤ x i + mv.expand i ∧ x i - mv.expand i ≤ ℓ.maxs i) ∧
    t.outOfBounds (mv.boundsAt x) = false

/-- Wherever the box is in a leaf, it reaches the leaf's bounds. -/
def Covered (env : Env) (mv : Move) (leafs : List Leaf) : Prop :=
  ∀ ℓ ∈ leafs, ℓ.data.contents &&& mv.hitcontents ≠ 0 → ∀ t, 0 ≤ t → t ≤ 1 →
    inside env mv ℓ.data (mv.position t) → ℓ.Reached mv (mv.position t)

/-- A box at a position is within the bounds of the move, and reaches those of the node. -/
structure Near (mv : Move) (movesubbounds nodebox : Box) (x : Vec) : Prop where
  within : ∀ i, movesubbounds.min i ≤ x i - mv.expand i ∧ x i + mv.expand i ≤ movesubbounds.max i
  node : ∀ i, nodebox.min i ≤ x i + mv.expand i ∧ x i - mv.expand i ≤ nodebox.max i

theorem outOfBounds_iff {t : Triangle} {b : Box} :
    t.outOfBounds b = false ↔ ∀ j, t.tmins j ≤ b.max j + 1 / 8 ∧ b.min j - 1 / 8 ≤ t.tmaxs j := by
  rw [Triangle.outOfBounds, any_eq_false]
  constructor
  · intro h j
    have hj := h j (mem_finRange j)
    rw [Bool.or_eq_true, decide_eq_true_eq, decide_eq_true_eq] at hj
    obtain ⟨hmin, hmax⟩ := not_or.mp hj
    exact ⟨not_lt.mp hmin, not_lt.mp hmax⟩
  · intro h j _ hj
    rw [Bool.or_eq_true, decide_eq_true_eq, decide_eq_true_eq] at hj
    exact hj.elim (not_lt.mpr (h j).1) (not_lt.mpr (h j).2)

section Trace

variable {env : Env} {mv : Move} {leafs : List Leaf} {ℓ : Leaf} {movesubbounds nodebox : Box} {tr : Trace} {x : Vec}

theorem Leaf.Reached.box (h : ℓ.Reached mv x) (hbox : ℓ.Boxed) (i : Fin 3) :
    ℓ.mins i ≤ x i + mv.expand i ∧ x i - mv.expand i ≤ ℓ.maxs i := by
  unfold Leaf.Reached at h
  unfold Leaf.Boxed at hbox
  cases hsolid : ℓ.data.solid with
  | triangle t =>
    rw [hsolid] at h
    exact h.1 i
  | brush b =>
    rw [hsolid] at h hbox
    obtain ⟨hmin, hmax⟩ := h i
    exact ⟨(hbox i).1.trans hmin, hmax.trans (hbox i).2⟩

/-- A trace does at a leaf what a clip without its tests does, or leaves it out as it does not matter. -/
theorem trace_culls (ℓ : Leaf) (movesubbounds nodebox : Box) (hmv : mv.Swept) (htr : tr.Valid)
    (hnear : ℓ.data.contents &&& mv.hitcontents ≠ 0 → ∀ t, 0 ≤ t → t ≤ tr.truefraction →
      inside env mv ℓ.data (mv.position t) →
        ℓ.Reached mv (mv.position t) ∧ Near mv movesubbounds nodebox (mv.position t)) :
    Culls (dataValue env mv) tr.key [ℓ.data] (ℓ.data.trace env mv movesubbounds tr).key := by
  -- either it is the clip, or the tests fail and nothing is in the leaf
  have htake (h : ℓ.data.trace env mv movesubbounds tr = clipData env mv ℓ.data tr) :
      Culls (dataValue env mv) tr.key [ℓ.data] (ℓ.data.trace env mv movesubbounds tr).key := by
    rw [h]
    exact .take (clipData_key htr ▸ .nil _)
  have hskip (h : ℓ.data.trace env mv movesubbounds tr = tr)
      (hout : ℓ.data.contents &&& mv.hitcontents ≠ 0 → ∀ t, 0 ≤ t → t ≤ tr.truefraction →
        ¬inside env mv ℓ.data (mv.position t)) :
      Culls (dataValue env mv) tr.key [ℓ.data] (ℓ.data.trace env mv movesubbounds tr).key := by
    rw [h]
    exact .skip (key_le_dataValue hmv.endpos htr hout) (.nil _)
  by_cases hmask : ℓ.data.contents &&& mv.hitcontents = 0
  · refine htake ?_
    rw [Data.trace, if_pos hmask, clipData, if_pos hmask]
  have hnear := hnear hmask
  unfold Leaf.Reached at hnear
  cases hsolid : ℓ.data.solid with
  | brush b =>
    rw [hsolid] at hnear
    by_cases htest : boundsIntersect b.absmins b.absmaxs movesubbounds.min movesubbounds.max = true
    · refine htake ?_
      simp only [Data.trace, clipData, if_neg hmask, hsolid, if_pos htest]
    · refine hskip ?_ fun _ t h0 h1 hin => htest (boundsIntersect_iff.mpr fun i => ?_)
      · simp only [Data.trace, if_neg hmask, hsolid, if_neg htest]
      · obtain ⟨hreached, hn⟩ := hnear t h0 h1 hin
        exact ⟨(hreached i).1.trans (hn.within i).2, (hn.within i).1.trans (hreached i).2⟩
  | triangle t =>
    rw [hsolid] at hnear
    by_cases htest : t.outOfBounds mv.bounds = true
    · refine hskip ?_ fun _ f h0 h1 hin => ?_
      · simp only [Data.trace, if_neg hmask, hsolid, clipToTriangle, if_pos htest]
      · obtain ⟨⟨-, hreached⟩, -⟩ := hnear f h0 h1 hin
        have hat := outOfBounds_iff.mp hreached
        refine absurd (outOfBounds_iff.mpr fun j => ?_) (by rw [htest]; exact Bool.true_eq_false.mp)
        obtain ⟨hmin, hmax⟩ := hmv.boundsAt h0 (h1.trans htr.2) j
        exact ⟨(hat j).1.trans (by linarith), (sub_le_sub_right hmin _).trans (hat j).2⟩
    · refine htake ?_
      simp only [Data.trace, clipData, if_neg hmask, hsolid, clipToTriangle, if_neg htest]

theorem between {a b x : ℚ} (h : (a ≤ x ∧ x ≤ b) ∨ (b ≤ x ∧ x ≤ a)) :
    (if b < a then b else a) ≤ x ∧ x ≤ if b < a then a else b := by
  by_cases hlt : b < a
  · rw [if_pos hlt, if_pos hlt]
    exact h.elim (fun h => absurd (h.1.trans h.2) (not_le.mpr hlt)) id
  · rw [if_neg hlt, if_neg hlt]
    exact h.elim id fun h => ⟨(not_lt.mp hlt).trans h.1, h.2.trans (not_lt.mp hlt)⟩

/-- Between two fractions the move is in the bounds between them. -/
theorem Move.near_clipBounds {near far t : ℚ} {axis : Fin 3} {lo hi : ℚ}
    (hnear : Near mv movesubbounds nodebox (mv.position t)) (hn : near ≤ t) (hf : t ≤ far) (hlo : lo ≤ mv.position t axis)
    (hhi : mv.position t axis ≤ hi) (hexpand : ∀ i, 0 ≤ mv.expand i) :
    Near mv (mv.clipBounds movesubbounds near far) (nodebox.on axis lo hi) (mv.position t) := by
  refine ⟨fun i => ?_, fun i => ?_⟩
  · have hbetween := between (a := mv.position near i) (b := mv.position far i) (x := mv.position t i) <| by
      simp only [Move.position, add_le_add_iff_left]
      rcases le_total 0 (mv.totalmove i) with hm | hm
      · exact .inl ⟨mul_le_mul_of_nonneg_right hn hm, mul_le_mul_of_nonneg_right hf hm⟩
      · exact .inr ⟨mul_le_mul_of_nonpos_right hf hm, mul_le_mul_of_nonpos_right hn hm⟩
    obtain ⟨hlow, hhigh⟩ := hnear.within i
    exact ⟨max_le hlow (sub_le_sub_right hbetween.1 _), le_min hhigh (add_le_add_left hbetween.2 _)⟩
  · by_cases hi : i = axis
    · simp only [Box.on, if_pos hi]
      rw [hi]
      have := hexpand axis
      exact ⟨by linarith, by linarith⟩
    · simp only [Box.on, if_neg hi]
      exact hnear.node i

theorem Near.on {t : ℚ} {axis : Fin 3} {lo hi : ℚ} (hnear : Near mv movesubbounds nodebox (mv.position t))
    (hlo : lo ≤ mv.position t axis) (hhi : mv.position t axis ≤ hi) (hexpand : ∀ i, 0 ≤ mv.expand i) :
    Near mv movesubbounds (nodebox.on axis lo hi) (mv.position t) := by
  refine ⟨hnear.within, fun i => ?_⟩
  by_cases hi : i = axis
  · simp only [Box.on, if_pos hi]
    rw [hi]
    have := hexpand axis
    exact ⟨by linarith, by linarith⟩
  · simp only [Box.on, if_neg hi]
    exact hnear.node i

/-- The bounds of the move meet those of a child that it reaches. -/
theorem Near.intersect (hnear : Near mv movesubbounds nodebox x) :
    boundsIntersect movesubbounds.min movesubbounds.max nodebox.min nodebox.max = true :=
  boundsIntersect_iff.mpr fun i =>
    ⟨(hnear.within i).1.trans (hnear.node i).2, (hnear.node i).1.trans (hnear.within i).2⟩

end Trace

section Trace

variable {env : Env} {mv : Move} {leafs : List Leaf} {movesubbounds nodebox : Box} {tr tr' : Trace} {node : Node}

/-- The order of a trace is one of the leaves that the tree holds. -/
theorem leavesInOrder_perm (mv : Move) (h : Holds leafs node) : (leavesInOrder mv node).Perm (leafs.map Leaf.data) := by
  induction h with
  | leaf ℓ => exact .refl _
  | group leafs =>
    refine .of_eq ?_
    rw [leavesInOrder]
    simp only [leavesInOrder, ← map_eq_flatMap]
    conv_rhs => rw [← map_get_finRange leafs, map_map]
    rfl
  | @axis leafs axis child cmin cmax _ _ ih =>
    rw [leavesInOrder, map_append]
    split
    · rw [flatMap_cons, flatMap_singleton]
      exact ((ih 1).append (ih 0)).trans perm_append_comm
    · rw [flatMap_cons, flatMap_singleton]
      exact (ih 0).append (ih 1)

/-- What a walk leaves of a trace. -/
theorem valid_of_culls {l : List Data} (h : Culls (dataValue env mv) tr.key l tr'.key) (htr : tr.Valid) :
    tr'.Valid ∧ tr'.truefraction ≤ tr.truefraction := by
  have hle : tr'.truefraction ≤ tr.truefraction := (Prod.le_def.mp h.le).1
  have hnonneg : ((0, OrderDual.toDual true) : ℚ × Boolᵒᵈ) ≤ tr'.key := by
    refine h.lower (Prod.le_def.mpr ⟨htr.1, Bool.le_true _⟩) fun d _ => ?_
    exact Prod.le_def.mpr ⟨dataValue_nonneg env mv d, Bool.le_true _⟩
  exact ⟨⟨(Prod.le_def.mp hnonneg).1, hle.trans htr.2⟩, hle⟩

/-- Wherever the box is in one of the leaves by the fraction of the trace, it is near to the node. -/
def NearAll (env : Env) (mv : Move) (leafs : List Leaf) (movesubbounds nodebox : Box) (tr : Trace) : Prop :=
  ∀ ℓ ∈ leafs, ℓ.data.contents &&& mv.hitcontents ≠ 0 → ∀ t, 0 ≤ t → t ≤ tr.truefraction →
    inside env mv ℓ.data (mv.position t) → Near mv movesubbounds nodebox (mv.position t)

theorem NearAll.mono {leafs' : List Leaf} (h : NearAll env mv leafs movesubbounds nodebox tr)
    (hsub : ∀ ℓ ∈ leafs', ℓ ∈ leafs) (hle : tr'.truefraction ≤ tr.truefraction) :
    NearAll env mv leafs' movesubbounds nodebox tr' := fun ℓ hℓ hmask t h0 h1 hin =>
  h ℓ (hsub ℓ hℓ) hmask t h0 (h1.trans hle) hin

/-- A child that the move is not let into has nothing that matters, and one that it is let into is near. -/
theorem Move.visit_culls (hmv : mv.Swept) (htr : tr.Valid) {axis : Fin 3} {lo hi near far : ℚ}
    {rec : Box → Box → Trace → Trace} (hperm : (leavesInOrder mv node).Perm (leafs.map Leaf.data))
    (hrec : ∀ movesubbounds nodebox, NearAll env mv leafs movesubbounds nodebox tr →
      Culls (dataValue env mv) tr.key (leavesInOrder mv node) (rec movesubbounds nodebox tr).key)
    (hnear : NearAll env mv leafs movesubbounds nodebox tr)
    (hslab : ∀ ℓ ∈ leafs, ℓ.data.contents &&& mv.hitcontents ≠ 0 → ∀ t, 0 ≤ t → t ≤ tr.truefraction →
      inside env mv ℓ.data (mv.position t) → lo ≤ mv.position t axis ∧ mv.position t axis ≤ hi)
    (hfrac : ∀ t, lo ≤ mv.position t axis → mv.position t axis ≤ hi →
      (near - mv.startpos axis) / mv.totalmove axis ≤ t ∧ t ≤ (far - mv.startpos axis) / mv.totalmove axis) :
    Culls (dataValue env mv) tr.key (leavesInOrder mv node)
      (mv.visit axis near far rec movesubbounds (nodebox.on axis lo hi) tr).key := by
  have hskip (hout : ∀ ℓ ∈ leafs, ℓ.data.contents &&& mv.hitcontents ≠ 0 → ∀ t, 0 ≤ t → t ≤ tr.truefraction →
      ¬inside env mv ℓ.data (mv.position t)) : Culls (dataValue env mv) tr.key (leavesInOrder mv node) tr.key := by
    refine .skipAll fun d hd => ?_
    obtain ⟨ℓ, hℓ, rfl⟩ := mem_map.mp (hperm.mem_iff.mp hd)
    exact key_le_dataValue hmv.endpos htr (hout ℓ hℓ)
  unfold Move.visit
  by_cases htest : boundsIntersect movesubbounds.min movesubbounds.max (nodebox.on axis lo hi).min
      (nodebox.on axis lo hi).max = true
  swap
  · rw [if_pos (by rw [eq_false_of_ne_true htest]; rfl)]
    refine hskip fun ℓ hℓ hmask t h0 h1 hin => htest ?_
    obtain ⟨hlo, hhi⟩ := hslab ℓ hℓ hmask t h0 h1 hin
    exact ((hnear ℓ hℓ hmask t h0 h1 hin).on hlo hhi hmv.expand).intersect
  rw [if_neg (by rw [htest]; exact Bool.false_ne_true)]
  dsimp only
  by_cases hbest : (near - mv.startpos axis) / mv.totalmove axis ≤ tr.truefraction
  · rw [if_pos hbest]
    refine hrec _ _ fun ℓ hℓ hmask t h0 h1 hin => ?_
    obtain ⟨hlo, hhi⟩ := hslab ℓ hℓ hmask t h0 h1 hin
    obtain ⟨hn, hf⟩ := hfrac t hlo hhi
    exact Move.near_clipBounds (hnear ℓ hℓ hmask t h0 h1 hin) hn hf hlo hhi hmv.expand
  · rw [if_neg hbest]
    refine hskip fun ℓ hℓ hmask t h0 h1 hin => hbest ?_
    obtain ⟨hlo, hhi⟩ := hslab ℓ hℓ hmask t h0 h1 hin
    exact (hfrac t hlo hhi).1.trans h1

/-- A trace is a walk over the leaves that leaves out only what does not matter. -/
theorem recursiveTrace_culls (hmv : mv.Swept) (h : Holds leafs node) (hbox : ∀ ℓ ∈ leafs, ℓ.Boxed)
    (hcovered : Covered env mv leafs) (htr : tr.Valid) (hnear : NearAll env mv leafs movesubbounds nodebox tr) :
    Culls (dataValue env mv) tr.key (leavesInOrder mv node)
      (recursiveTrace env mv node movesubbounds nodebox tr).key := by
  induction h generalizing movesubbounds nodebox tr with
  | leaf ℓ =>
    refine trace_culls ℓ movesubbounds nodebox hmv htr fun hmask t h0 h1 hin => ?_
    exact ⟨hcovered ℓ (.head _) hmask t h0 (h1.trans htr.2) hin, hnear ℓ (.head _) hmask t h0 h1 hin⟩
  | group leafs =>
    rw [recursiveTrace, leavesInOrder]
    refine (Culls.loop (P := fun tr₁ : Trace => tr₁.Valid ∧ tr₁.truefraction ≤ tr.truefraction) (fun tr₁ htr₁ i _ => ?_)
      ⟨htr, le_rfl⟩).1
    have hmem : leafs.get i ∈ leafs := get_mem leafs i
    have hwalk := trace_culls (leafs.get i) movesubbounds nodebox hmv htr₁.1
      fun hmask t h0 h1 hin => ⟨hcovered _ hmem hmask t h0 (h1.trans htr₁.1.2) hin,
        hnear _ hmem hmask t h0 (h1.trans htr₁.2) hin⟩
    obtain ⟨hvalid, hle⟩ := valid_of_culls hwalk htr₁.1
    exact ⟨hwalk, hvalid, hle.trans htr₁.2⟩
  | @axis leafs axis child cmin cmax hchild hbounds ih =>
    have hsub (c : Fin 2) : ∀ ℓ ∈ leafs c, ℓ ∈ leafs 0 ++ leafs 1 := fun ℓ hℓ => by
      match c with
      | 0 => exact mem_append_left _ hℓ
      | 1 => exact mem_append_right _ hℓ
    have hslab (c : Fin 2) : ∀ ℓ ∈ leafs c, ℓ.data.contents &&& mv.hitcontents ≠ 0 → ∀ t, 0 ≤ t → t ≤ 1 →
        inside env mv ℓ.data (mv.position t) →
        cmin c - mv.expand axis ≤ mv.position t axis ∧ mv.position t axis ≤ cmax c + mv.expand axis := by
      intro ℓ hℓ hmask t h0 h1 hin
      obtain ⟨hmin, hmax⟩ := (hcovered ℓ (hsub c ℓ hℓ) hmask t h0 h1 hin).box (hbox ℓ (hsub c ℓ hℓ)) axis
      obtain ⟨hcmin, hcmax⟩ := hbounds c ℓ hℓ
      simp only [Leaf.bounds] at hcmin hcmax
      exact ⟨by linarith, by linarith⟩
    have hih (c : Fin 2) {tr₁ : Trace} (htr₁ : tr₁.Valid) (movesubbounds nodebox : Box)
        (hnear : NearAll env mv (leafs c) movesubbounds nodebox tr₁) :
        Culls (dataValue env mv) tr₁.key (leavesInOrder mv (child c))
          (recursiveTrace env mv (child c) movesubbounds nodebox tr₁).key :=
      ih c (fun ℓ hℓ => hbox ℓ (hsub c ℓ hℓ)) (fun ℓ hℓ => hcovered ℓ (hsub c ℓ hℓ)) htr₁ hnear
    -- the loop over the children, from the walk over each
    have hloop (steps : List (Fin 2)) (f : Trace → Fin 2 → Trace)
        (hstep : ∀ tr₁ : Trace, tr₁.Valid → tr₁.truefraction ≤ tr.truefraction → ∀ c,
          Culls (dataValue env mv) tr₁.key (leavesInOrder mv (child c)) (f tr₁ c).key) :
        Culls (dataValue env mv) tr.key (steps.flatMap fun c => leavesInOrder mv (child c)) (steps.foldl f tr).key := by
      refine (Culls.loop (P := fun tr₁ : Trace => tr₁.Valid ∧ tr₁.truefraction ≤ tr.truefraction) (fun tr₁ htr₁ c _ => ?_)
        ⟨htr, le_rfl⟩).1
      have hwalk := hstep tr₁ htr₁.1 htr₁.2 c
      obtain ⟨hvalid, hle⟩ := valid_of_culls hwalk htr₁.1
      exact ⟨hwalk, hvalid, hle.trans htr₁.2⟩
    have hpos (t : ℚ) : mv.position t axis - mv.startpos axis = t * mv.totalmove axis := add_sub_cancel_left _ _
    rw [recursiveTrace, leavesInOrder]
    by_cases hstill : mv.totalmove axis = 0
    · rw [if_pos hstill, if_neg fun h => h.1 hstill]
      refine hloop _ _ fun tr₁ htr₁ hle c => ?_
      have hat (t : ℚ) : mv.position t axis = mv.startpos axis := by
        rw [Move.position, hstill, mul_zero, add_zero]
      by_cases hin : cmin c - mv.expand axis ≤ mv.startpos axis ∧ mv.startpos axis ≤ cmax c + mv.expand axis
      · rw [if_pos hin]
        refine hih c htr₁ _ _ fun ℓ hℓ hmask t h0 h1 hinside => ?_
        exact ((hnear.mono (hsub c) hle) ℓ hℓ hmask t h0 h1 hinside).on (hat t ▸ hin.1) (hat t ▸ hin.2) hmv.expand
      · rw [if_neg hin]
        refine .skipAll fun d hd => ?_
        obtain ⟨ℓ, hℓ, rfl⟩ := mem_map.mp ((leavesInOrder_perm mv (hchild c)).mem_iff.mp hd)
        refine key_le_dataValue hmv.endpos htr₁ fun hmask t h0 h1 hinside => hin ?_
        have := hslab c ℓ hℓ hmask t h0 (h1.trans htr₁.2) hinside
        rwa [hat t] at this
    rw [if_neg hstill]
    by_cases hnegative : mv.negativedir axis = true
    · rw [if_pos hnegative, if_pos ⟨hstill, hnegative⟩]
      have hneg : mv.totalmove axis < 0 := (hmv.negativedir axis).mp hnegative
      refine hloop _ _ fun tr₁ htr₁ hle c => ?_
      refine Move.visit_culls hmv htr₁ (leavesInOrder_perm mv (hchild c)) (hih c htr₁) (hnear.mono (hsub c) hle)
        (fun ℓ hℓ hmask t h0 h1 => hslab c ℓ hℓ hmask t h0 (h1.trans htr₁.2)) fun t hlo hhi => ⟨?_, ?_⟩
      · rw [div_le_iff_of_neg hneg, ← hpos t]
        exact sub_le_sub_right hhi _
      · rw [le_div_iff_of_neg hneg, ← hpos t]
        exact sub_le_sub_right hlo _
    · rw [if_neg hnegative, if_neg fun h => hnegative h.2]
      have hposm : 0 < mv.totalmove axis :=
        lt_of_le_of_ne (not_lt.mp fun h => hnegative ((hmv.negativedir axis).mpr h)) (Ne.symm hstill)
      refine hloop _ _ fun tr₁ htr₁ hle c => ?_
      refine Move.visit_culls hmv htr₁ (leavesInOrder_perm mv (hchild c)) (hih c htr₁) (hnear.mono (hsub c) hle)
        (fun ℓ hℓ hmask t h0 h1 => hslab c ℓ hℓ hmask t h0 (h1.trans htr₁.2)) fun t hlo hhi => ⟨?_, ?_⟩
      · rw [div_le_iff₀ hposm, ← hpos t]
        exact sub_le_sub_right hlo _
      · rw [le_div_iff₀ hposm, ← hpos t]
        exact sub_le_sub_right hhi _

/-- A clip against every leaf is a walk that leaves out nothing. -/
theorem clipEvery_key (env : Env) (mv : Move) (l : List Data) {tr : Trace} (htr : tr.Valid) :
    Culls (dataValue env mv) tr.key l (l.foldl (fun tr d => clipData env mv d tr) tr).key := by
  induction l generalizing tr with
  | nil => exact .nil _
  | cons d l ih =>
    have hstep : Culls (dataValue env mv) tr.key [d] (clipData env mv d tr).key := .take (clipData_key htr ▸ .nil _)
    exact hstep.append (ih (valid_of_culls hstep htr).1)

end Trace

/-! ## Where the box is in a leaf -/

theorem dotProduct_unit (x : Vec) (i : Fin 3) : dotProduct x (unit i) = x i := by
  fin_cases i <;> simp [dotProduct, unit]

theorem dotProduct_neg_unit (x : Vec) (i : Fin 3) : dotProduct x (fun j => -unit i j) = -x i := by
  fin_cases i <;> simp [dotProduct, unit]

/-- A brush has planes for its extents. -/
def Brush.Bevelled (b : Brush) : Prop := ∀ i, (∃ s ∈ b.brushside, s.normal = unit i ∧ s.dist = b.absmaxs i) ∧
  ∃ s ∈ b.brushside, s.normal = (fun j => -unit i j) ∧ s.dist = -b.absmins i

section Reached

variable {env : Env} {mv : Move} {ℓ : Leaf} {x : Vec}

/-- A box that is not rotated, and a point, reach the bounds of a brush that has planes for its extents. -/
theorem reached_of_bevelled (hmv : mv.Swept) (hrot : mv.boxrotated = false) {b : Brush}
    (hsolid : ℓ.data.solid = .brush b) (hbevelled : b.Bevelled) (hin : inside env mv ℓ.data x) : ℓ.Reached mv x := by
  unfold inside at hin
  unfold Leaf.Reached
  rw [hsolid] at hin ⊢
  dsimp only at hin ⊢
  have hslack := slack_le env.sourceclip
  have hside (s : Plane) (hs : s ∈ b.brushside) : dotProduct x s.normal - mv.calcdist s ≤ 1 / 32 :=
    (hin.2 _ (mem_map_of_mem hs)).trans hslack
  intro i
  obtain ⟨⟨s, hs, hnormal, hdist⟩, s', hs', hnormal', hdist'⟩ := hbevelled i
  have hmax := hside s hs
  have hmin := hside s' hs'
  rw [hnormal, dotProduct_unit] at hmax
  rw [hnormal', dotProduct_neg_unit] at hmin
  cases hshape : mv.shape with
  | ispoint =>
    simp only [Move.calcdist, hshape] at hmax hmin
    rw [hmv.expandPoint hshape]
    exact ⟨by linarith, by linarith⟩
  | isbox =>
    obtain ⟨hsize, -, hexpand⟩ := hmv.expandBox hshape hrot i
    have hunit : ¬unit i i < 0 := by
      rw [unit, if_pos rfl]
      norm_num
    have hofs : dotProduct (fun j => if unit i j < 0 then mv.size.max j else mv.size.min j) (unit i) = mv.size.min i := by
      rw [dotProduct_unit, if_neg hunit]
    have hneg : -unit i i < 0 := by
      rw [unit, if_pos rfl]
      norm_num
    have hofs' : dotProduct (fun j => if -unit i j < 0 then mv.size.max j else mv.size.min j) (fun j => -unit i j) =
        -mv.size.max i := by
      rw [dotProduct_neg_unit, if_pos hneg]
    simp only [Move.calcdist, hshape, hrot, hnormal, hofs, Bool.false_eq_true, if_false] at hmax
    simp only [Move.calcdist, hshape, hrot, hnormal', hofs', Bool.false_eq_true, if_false] at hmin
    exact ⟨by linarith, by linarith⟩

end Reached

/-- Axes and their opposites have unit length, and nothing else is normalised here. -/
def axialNormalize (v : Vec) : ℚ × Vec :=
  let length := |v 0| + |v 1| + |v 2|
  (length, fun i => v i / length)

def quakeRules : Env :=
  { sourceclip := false, trisoupBevels := true, rotatedboxhulls := true, vectorNormalize := axialNormalize }

/-- A plane across an axis. -/
def acrossAxis (i : Fin 3) (dist : ℚ) : Plane := ⟨unit i, dist, i⟩

def acrossAxisBack (i : Fin 3) (dist : ℚ) : Plane := ⟨fun j => -unit i j, dist, 3⟩

/-- A brush that is a cube of eight units. -/
def cube : Brush :=
  { contents := 1, absmins := fun _ => 0, absmaxs := fun _ => 8
    brushside := [acrossAxis 0 8, acrossAxis 1 8, acrossAxis 2 8, acrossAxisBack 0 0, acrossAxisBack 1 0, acrossAxisBack 2 0] }

def cubeLeaf : Leaf := ⟨fun _ => 0, fun _ => 8, ⟨1, .brush cube⟩⟩

/-- A wedge with its edge along an axis, which has no planes for its extents but at its back. -/
def wedge : Brush :=
  { contents := 1, absmins := ![-24, -8, -7], absmaxs := ![0, 8, 7]
    brushside := [⟨![7 / 25, 0, 24 / 25], 0, 3⟩, ⟨![7 / 25, 0, -24 / 25], 0, 3⟩, acrossAxisBack 0 24, acrossAxis 1 8,
      acrossAxisBack 1 8] }

def wedgeLeaf : Leaf := ⟨![-24, -8, -7], ![0, 8, 7], ⟨1, .brush wedge⟩⟩

end Bih

end FteQuake
