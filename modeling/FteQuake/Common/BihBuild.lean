import FteQuake.Common.BihSort
import FteQuake.Lib.Numerals
import Mathlib.Data.Fin.VecNotation
import Mathlib.Data.Fintype.Order
import Mathlib.Order.Lattice

/-!
# Building a bounding interval hierarchy in its arena

`BIH_BuildNode` and `BIH_Build` of `com_bih.c` with their memory: the array of leafs that is sorted in place, the
scratch array of the sort, and the array that nodes are taken from. An access outside of an array fails.

The coordinates are any numbers with an order; the arithmetic is an `Arith`, which is that of `float` or an exact one.
`buildTree` is the tree by itself; `buildNode_spec` says that the code leaves that tree in the arena, whatever there was
in it and in the scratch array.
-/

namespace FteQuake

open List Option Mem

namespace BihBuild

/-- What is computed with coordinates: sums, means, and a unit less or more. -/
structure Arith (α : Type*) [LinearOrder α] where
  add : α → α → α
  avg : α → α → α
  down : α → α
  up : α → α
  down_le : ∀ x, down x ≤ x
  le_up : ∀ x, x ≤ up x

variable {α δ : Type*} [LinearOrder α]

/-- `struct bihbox_s`. -/
structure Box (α : Type*) where
  min : Fin 3 → α
  max : Fin 3 → α

/-- `struct bihleaf_s`, its type with the data. -/
structure Leaf (α δ : Type*) where
  mins : Fin 3 → α
  maxs : Fin 3 → α
  data : δ

/-- The types of nodes. -/
inductive NodeType
  | leaf
  | group
  | axis (axis : Fin 3)

/-- `struct bihnode_s`, without the union. -/
structure Rec (α δ : Type*) where
  type : NodeType
  data : δ
  firstchild : ℕ
  numchildren : ℕ
  cmin : Fin 2 → α
  cmax : Fin 2 → α

/-- The arrays, and the first free node. -/
structure State (α δ : Type*) where
  leafs : Mem (Leaf α δ)
  scratch : Mem (Leaf α δ)
  nodes : Mem (Rec α δ)
  freenodes : ℕ

/-! ## The code -/

/-- Two calls of `AddPointToBounds`. -/
def Box.join (b c : Box α) : Box α where
  min j := Min.min (Min.min (b.min j) (c.min j)) (c.max j)
  max j := Max.max (Max.max (b.max j) (c.min j)) (c.max j)

variable (A : Arith α)

/-- What `BIH_Sort_X`, `BIH_Sort_Y` and `BIH_Sort_Z` compare. -/
def key (axis : Fin 3) (ℓ : Leaf α δ) : α := A.add (ℓ.maxs axis) (ℓ.mins axis)

/-- `BIH_Sort_X`, `BIH_Sort_Y` and `BIH_Sort_Z`. -/
def sortCmp (axis : Fin 3) (a b : Leaf α δ) : ℤ :=
  if key A axis a < key A axis b then -1 else if key A axis b < key A axis a then 1 else 0

/-- The bounds of leafs, the first of which is given. -/
def leafBounds (first : Leaf α δ) (rest : List (Leaf α δ)) : Box α :=
  rest.foldl (fun b ℓ => ⟨fun j => min (b.min j) (ℓ.mins j), fun j => max (b.max j) (ℓ.maxs j)⟩) ⟨first.mins, first.maxs⟩

/-- The axis that a node is split on: the most balanced one by counts. -/
def splitAxis : List (Leaf α δ) → Fin 3
  | [] => 2
  | first :: rest =>
    let bounds := leafBounds first rest
    let mid : Fin 3 → α := fun j => A.avg (bounds.max j) (bounds.min j)
    let onleft : Fin 3 → ℤ := fun j => (first :: rest).countP fun ℓ => decide (ℓ.maxs j < mid j)
    let onright : Fin 3 → ℤ := fun j => (first :: rest).countP fun ℓ => decide (ℓ.mins j < mid j)
    let weight : Fin 3 → ℤ := fun j => onleft j + onright j - ((onleft j - onright j).natAbs : ℤ)
    if weight 1 < weight 0 ∧ weight 2 < weight 0 then 0 else if weight 2 < weight 1 then 1 else 2

/-- The bounds of a leaf's node, a unit wider. -/
def Leaf.bounds (ℓ : Leaf α δ) : Box α := ⟨fun i => A.down (ℓ.mins i), fun i => A.up (ℓ.maxs i)⟩

variable (numleafs numnodes : ℕ)

/-- `BIH_BuildNode` for one leaf, at `p` of the array. -/
def buildLeaf (node p : ℕ) (st : State α δ) : Option (Box α × State α δ) :=
  (BihSort.entry numleafs st.leafs p).bind fun ℓ =>
    (st.nodes.put numnodes node { st.nodes node with type := .leaf, data := ℓ.data }).map fun nodes =>
      (ℓ.bounds A, { st with nodes })

/-- The loop over the children of a group, `k` of them from the `i`th one on. -/
def groupLoop (cnodes p : ℕ) : ℕ → ℕ → Box α → State α δ → Option (Box α × State α δ)
  | 0, _, bounds, st => some (bounds, st)
  | k + 1, i, bounds, st =>
    (buildLeaf A numleafs numnodes (cnodes + i) (p + i) st).bind fun r =>
      groupLoop cnodes p k (i + 1) (bounds.join r.1) r.2

/-- `BIH_BuildNode` for `n` leafs from `p` on. -/
def buildNode (n node p : ℕ) (st : State α δ) : Option (Box α × State α δ) :=
  if n = 1 then buildLeaf A numleafs numnodes node p st
  else if 8 ≤ n then
    if p + n ≤ numleafs then
      let axis := splitAxis A (st.leafs.slice p n)
      (BihSort.sortLeafs (sortCmp A axis) n (fun i => st.leafs (p + i)) st.scratch).bind fun sorted =>
        let cnodes := st.freenodes
        (st.nodes.put numnodes node
            { st.nodes node with type := .axis axis, firstchild := cnodes - node }).bind fun nodes =>
          (buildNode (n / 2) cnodes p ⟨st.leafs.blit p (sorted.1.slice 0 n), sorted.2, nodes, cnodes + 2⟩).bind fun left =>
            (buildNode (n - n / 2) (cnodes + 1) (p + n / 2) left.2).bind fun right =>
              (right.2.nodes.put numnodes node
                  { right.2.nodes node with
                    cmin := ![left.1.min axis, right.1.min axis]
                    cmax := ![left.1.max axis, right.1.max axis] }).map fun nodes =>
                (left.1.join right.1, { right.2 with nodes })
    else none
  else
    let cnodes := st.freenodes
    (st.nodes.put numnodes node
        { st.nodes node with type := .group, firstchild := cnodes - node, numchildren := n }).bind fun nodes =>
      (buildLeaf A numleafs numnodes cnodes p { st with nodes, freenodes := cnodes + n }).bind fun r =>
        groupLoop A numleafs numnodes cnodes p (n - 1) 1 r.1 r.2
termination_by n

/-- `BIH_Build` for some leafs. It stops the program if there were too few nodes. -/
def build (leafs scratch : Mem (Leaf α δ)) (nodes : Mem (Rec α δ)) : Option (State α δ) :=
  (buildNode A numleafs (numleafs * 2 - 1) numleafs 0 0 ⟨leafs, scratch, nodes, 1⟩).bind fun r =>
    if numleafs * 2 - 1 < r.2.freenodes then none else some r.2

/-! ## Trees -/

/-- The nodes as a tree. The children of a group are leaves. -/
inductive Tree (α δ : Type*)
  | leaf (data : δ)
  | group (data : List δ)
  | axis (axis : Fin 3) (left right : Tree α δ) (cmin cmax : Fin 2 → α)

namespace Tree

/-- How many nodes a tree has. -/
def count : Tree α δ → ℕ
  | leaf _ => 1
  | group data => data.length + 1
  | axis _ left right _ _ => left.count + right.count + 1

/-- A leaf is at a node. -/
def LeafAt (nodes : Mem (Rec α δ)) (d : δ) (i : ℕ) : Prop := (nodes i).type = .leaf ∧ (nodes i).data = d

/-- The tree lies in the arena, at a node. -/
def At (nodes : Mem (Rec α δ)) : Tree α δ → ℕ → Prop
  | leaf d, i => LeafAt nodes d i
  | group ds, i =>
    (nodes i).type = .group ∧ (nodes i).numchildren = ds.length ∧
      ∀ j d, ds[j]? = some d → LeafAt nodes d (i + (nodes i).firstchild + j)
  | axis a left right cmin cmax, i =>
    (nodes i).type = .axis a ∧ (nodes i).cmin = cmin ∧ (nodes i).cmax = cmax ∧
      left.At nodes (i + (nodes i).firstchild) ∧ right.At nodes (i + (nodes i).firstchild + 1)

end Tree

/-- `BIH_SortLeafs` on a list. -/
def sorted (axis : Fin 3) (ls : List (Leaf α δ)) : List (Leaf α δ) :=
  StableMerge.sort (BihSort.le (sortCmp A axis)) ls

theorem sorted_perm (axis : Fin 3) (ls : List (Leaf α δ)) : (sorted A axis ls).Perm ls :=
  StableMerge.sort_perm _ ls

@[simp] theorem length_sorted (axis : Fin 3) (ls : List (Leaf α δ)) : (sorted A axis ls).length = ls.length :=
  (sorted_perm A axis ls).length_eq

/-- The tree of some leafs, and its bounds. -/
def buildTree (ls : List (Leaf α δ)) : Option (Tree α δ × Box α) :=
  match ls with
  | [] => none
  | first :: rest =>
    if rest = [] then some (.leaf first.data, first.bounds A)
    else if 8 ≤ (first :: rest).length then
      let axis := splitAxis A (first :: rest)
      let numleft := (first :: rest).length / 2
      (buildTree ((sorted A axis (first :: rest)).take numleft)).bind fun left =>
        (buildTree ((sorted A axis (first :: rest)).drop numleft)).map fun right =>
          (.axis axis left.1 right.1 ![left.2.min axis, right.2.min axis] ![left.2.max axis, right.2.max axis],
            left.2.join right.2)
    else
      some (.group ((first :: rest).map Leaf.data), rest.foldl (fun bounds ℓ => bounds.join (ℓ.bounds A)) (first.bounds A))
termination_by ls.length
decreasing_by
  all_goals
    simp only [List.length_take, List.length_drop, length_sorted]
    omega

/-! ## What a tree holds -/

/-- A box contains that of a leaf. -/
def Box.Contains (b : Box α) (ℓ : Leaf α δ) : Prop := ∀ i, b.min i ≤ ℓ.mins i ∧ ℓ.maxs i ≤ b.max i

/-- The leafs of a tree in order, where every node's box contains those of its leafs, and the slabs of its children
those of theirs. -/
inductive Holds : List (Leaf α δ) → Tree α δ → Box α → Prop
  | leaf {ℓ : Leaf α δ} {b : Box α} : b.Contains ℓ → Holds [ℓ] (.leaf ℓ.data) b
  | group {ls : List (Leaf α δ)} {b : Box α} : (∀ ℓ ∈ ls, b.Contains ℓ) → Holds ls (.group (ls.map Leaf.data)) b
  | axis {ls rs : List (Leaf α δ)} {l r : Tree α δ} {bl br b : Box α} {axis : Fin 3} {cmin cmax : Fin 2 → α} :
      Holds ls l bl → Holds rs r br → (∀ ℓ ∈ ls ++ rs, b.Contains ℓ) →
      (∀ ℓ ∈ ls, cmin 0 ≤ ℓ.mins axis ∧ ℓ.maxs axis ≤ cmax 0) →
      (∀ ℓ ∈ rs, cmin 1 ≤ ℓ.mins axis ∧ ℓ.maxs axis ≤ cmax 1) → Holds (ls ++ rs) (.axis axis l r cmin cmax) b

variable {A} {ls rs : List (Leaf α δ)} {ℓ : Leaf α δ} {tree : Tree α δ} {b c : Box α}

theorem Holds.contains (h : Holds ls tree b) : ∀ ℓ ∈ ls, b.Contains ℓ := by
  cases h with
  | leaf hb => simpa using hb
  | group hb => exact hb
  | axis _ _ hb => exact hb

theorem Box.Contains.bounds (ℓ : Leaf α δ) : (ℓ.bounds A).Contains ℓ := fun _ => ⟨A.down_le _, A.le_up _⟩

theorem Box.Contains.join_left (h : b.Contains ℓ) (c : Box α) : (b.join c).Contains ℓ := fun i =>
  ⟨((min_le_left _ _).trans (min_le_left _ _)).trans (h i).1, (h i).2.trans ((le_max_left _ _).trans (le_max_left _ _))⟩

theorem Box.Contains.join_right (h : c.Contains ℓ) (b : Box α) : (b.join c).Contains ℓ := fun i =>
  ⟨((min_le_left _ _).trans (min_le_right _ _)).trans (h i).1, (h i).2.trans (le_max_right _ _)⟩

/-- The box of a group contains its leafs. -/
theorem contains_foldl (h : b.Contains ℓ ∨ ℓ ∈ rs) :
    (rs.foldl (fun bounds ℓ => bounds.join (ℓ.bounds A)) b).Contains ℓ := by
  induction rs generalizing b with
  | nil => exact h.resolve_right not_mem_nil
  | cons r rs ih =>
    rw [foldl_cons]
    apply ih
    rcases h with h | h
    · exact .inl (h.join_left _)
    · rcases mem_cons.mp h with rfl | h
      · exact .inl ((Box.Contains.bounds ℓ).join_right _)
      · exact .inr h

/-- The tree of some leafs holds them, each once, and has at most one node less than two for each. -/
theorem buildTree_spec (ls : List (Leaf α δ)) (hne : ls ≠ []) : ∃ tree b order,
    buildTree A ls = some (tree, b) ∧ order.Perm ls ∧ Holds order tree b ∧ 0 < tree.count ∧
      tree.count + 1 ≤ ls.length * 2 := by
  induction hn : ls.length using Nat.strong_induction_on generalizing ls with
  | _ n ih =>
    obtain ⟨first, rest, rfl⟩ := exists_cons_of_ne_nil hne
    by_cases hone : rest = []
    · subst hone
      refine ⟨_, _, [first], by rw [buildTree, if_pos rfl], .refl _, .leaf (.bounds first), ?_⟩
      rw [← hn]
      simp [Tree.count]
    by_cases h8 : 8 ≤ (first :: rest).length
    · set axis := splitAxis A (first :: rest) with haxis
      have hlen : (sorted A axis (first :: rest)).length = n := by rw [length_sorted, hn]
      have htake : ((sorted A axis (first :: rest)).take (n / 2)).length = n / 2 := by
        rw [length_take, hlen]
        omega
      have hdrop : ((sorted A axis (first :: rest)).drop (n / 2)).length = n - n / 2 := by rw [length_drop, hlen]
      obtain ⟨left, bl, ls, hleft, hls, hholdsl, hposl, hcountl⟩ := ih (n / 2) (by omega)
        ((sorted A axis (first :: rest)).take (n / 2)) (ne_nil_of_length_pos (by omega)) htake
      obtain ⟨right, br, rs, hright, hrs, hholdsr, hposr, hcountr⟩ := ih (n - n / 2) (by omega)
        ((sorted A axis (first :: rest)).drop (n / 2)) (ne_nil_of_length_pos (by omega)) hdrop
      have hbuilt : buildTree A (first :: rest) = some (.axis axis left right ![bl.min axis, br.min axis]
          ![bl.max axis, br.max axis], bl.join br) := by
        rw [buildTree, if_neg hone, if_pos h8, hn]
        dsimp only
        rw [← haxis, hleft, bind_some, hright, map_some]
      refine ⟨_, _, ls ++ rs, hbuilt, ?_, .axis hholdsl hholdsr ?_ ?_ ?_, ?_⟩
      · have hall := hls.append hrs
        rw [take_append_drop] at hall
        exact hall.trans (sorted_perm A axis _)
      · intro ℓ hℓ
        rcases mem_append.mp hℓ with hℓ | hℓ
        · exact (hholdsl.contains ℓ hℓ).join_left br
        · exact (hholdsr.contains ℓ hℓ).join_right bl
      · exact fun ℓ hℓ => hholdsl.contains ℓ hℓ axis
      · exact fun ℓ hℓ => hholdsr.contains ℓ hℓ axis
      · simp only [Tree.count]
        omega
    · refine ⟨_, _, first :: rest, by rw [buildTree, if_neg hone, if_neg h8], .refl _, .group ?_, ?_⟩
      · intro ℓ hℓ
        rcases mem_cons.mp hℓ with rfl | hℓ
        · exact contains_foldl (.inl (.bounds ℓ))
        · exact contains_foldl (.inr hℓ)
      · have hpos := length_pos_of_ne_nil hone
        simp only [Tree.count, length_map]
        rw [length_cons] at hn ⊢
        omega

/-! ## The code builds the tree -/

section Code

variable {numleafs numnodes n node p cnodes : ℕ} {st : State α δ}

theorem put_eq_store {β : Type*} {cap i : ℕ} (h : i < cap) (m : Mem β) (x : β) : m.put cap i x = some (m.store i x) :=
  if_pos h

theorem store_of_ne {β : Type*} {m : Mem β} {i j : ℕ} (h : j ≠ i) (x : β) : m.store i x j = m j := if_neg h

theorem buildLeaf_eq (hp : p < numleafs) (hnode : node < numnodes) :
    buildLeaf A numleafs numnodes node p st = some ((st.leafs p).bounds A,
      { st with nodes := st.nodes.store node { st.nodes node with type := .leaf, data := (st.leafs p).data } }) := by
  rw [buildLeaf, BihSort.entry_of_lt hp, bind_some, put_eq_store hnode, map_some]

/-- What the loop over the children of a group does. -/
structure GroupDone (cnodes p k i : ℕ) (st st' : State α δ) : Prop where
  leafs : st'.leafs = st.leafs
  freenodes : st'.freenodes = st.freenodes
  at_child : ∀ j, i ≤ j → j < i + k → Tree.LeafAt st'.nodes (st.leafs (p + j)).data (cnodes + j)
  kept : ∀ m, m < cnodes + i ∨ cnodes + i + k ≤ m → st'.nodes m = st.nodes m

theorem groupLoop_spec {k i : ℕ} {b : Box α} (hp : p + i + k ≤ numleafs) (hnodes : cnodes + i + k ≤ numnodes) : ∃ st',
    groupLoop A numleafs numnodes cnodes p k i b st =
        some ((st.leafs.slice (p + i) k).foldl (fun bounds ℓ => bounds.join (ℓ.bounds A)) b, st') ∧
      GroupDone cnodes p k i st st' := by
  induction k generalizing i b st with
  | zero =>
    exact ⟨st, rfl, rfl, rfl, fun j hj hj' => absurd hj' (by omega), fun _ _ => rfl⟩
  | succ k ih =>
    rw [groupLoop, buildLeaf_eq (by omega) (by omega), bind_some]
    obtain ⟨st', hrun, hdone⟩ := @ih { st with nodes := _ } (i + 1) (b.join ((st.leafs (p + i)).bounds A)) (by omega)
      (by omega)
    refine ⟨st', hrun.trans ?_, hdone.leafs, hdone.freenodes, fun j hj hj' => ?_, fun m hm => ?_⟩
    · rw [slice_succ, foldl_cons]
      rfl
    · rcases eq_or_ne j i with rfl | hne
      · rw [Tree.LeafAt, hdone.kept _ (.inl (by omega))]
        simp
      · exact hdone.at_child j (by omega) (by omega)
    · rw [hdone.kept m (by omega)]
      exact store_of_ne (by omega) _

/-- What a call of `BIH_BuildNode` does: the tree is at the node, in nodes that were free, and nothing else has
changed but the order of its leafs. -/
structure Done (tree : Tree α δ) (n node p : ℕ) (st st' : State α δ) : Prop where
  freenodes : st'.freenodes + 1 = st.freenodes + tree.count
  leafs_kept : ∀ i, i < p ∨ p + n ≤ i → st'.leafs i = st.leafs i
  nodes_kept : ∀ i, i ≠ node → i < st.freenodes ∨ st'.freenodes ≤ i → st'.nodes i = st.nodes i
  at_node : ∀ nodes : Mem (Rec α δ), (∀ i, i = node ∨ st.freenodes ≤ i ∧ i < st'.freenodes → nodes i = st'.nodes i) →
    tree.At nodes node

theorem slice_shift {β : Type*} (m : Mem β) (p n : ℕ) : Mem.slice (fun i => m (p + i)) 0 n = m.slice p n := by
  refine ext_getElem (by simp) fun i h₁ h₂ => ?_
  simp

/-- One leaf. -/
theorem buildNode_one (hp : p + 1 ≤ numleafs) (hnode : node < numnodes) : ∃ st',
    buildNode A numleafs numnodes 1 node p st = some ((st.leafs p).bounds A, st') ∧
      Done (.leaf (st.leafs p).data) 1 node p st st' := by
  rw [buildNode, if_pos rfl, buildLeaf_eq (by omega) hnode]
  refine ⟨_, rfl, rfl, fun _ _ => rfl, fun i hi _ => store_of_ne hi _, fun nodes hsame => ?_⟩
  rw [Tree.At, Tree.LeafAt, hsame node (.inl rfl)]
  simp

/-- A group of leaves. -/
theorem buildNode_group (h1 : 1 < n) (h8 : n < 8) (hp : p + n ≤ numleafs) (hnode : node < st.freenodes)
    (hfree : st.freenodes + n ≤ numnodes) : ∃ st',
    buildNode A numleafs numnodes n node p st =
        some ((st.leafs.slice (p + 1) (n - 1)).foldl (fun bounds ℓ => bounds.join (ℓ.bounds A)) ((st.leafs p).bounds A),
          st') ∧
      Done (.group ((st.leafs.slice p n).map Leaf.data)) n node p st st' := by
  set nodes := st.nodes.store node
    { st.nodes node with type := .group, firstchild := st.freenodes - node, numchildren := n } with hnodes
  set nodes' := nodes.store st.freenodes { nodes st.freenodes with type := .leaf, data := (st.leafs p).data } with hnodes'
  obtain ⟨st', hrun, hdone⟩ := @groupLoop_spec _ _ _ A numleafs numnodes p st.freenodes
    ⟨st.leafs, st.scratch, nodes', st.freenodes + n⟩ (n - 1) 1 ((st.leafs p).bounds A) (by omega) (by omega)
  have hused : st'.freenodes = st.freenodes + n := hdone.freenodes
  refine ⟨st', ?_, ?_, fun i _ => by rw [hdone.leafs], fun i hi hi' => ?_, fun ns hsame => ?_⟩
  · rw [buildNode, if_neg (by omega), if_neg (by omega)]
    dsimp only
    rw [put_eq_store (by omega), bind_some, buildLeaf_eq (by omega) (by omega), bind_some]
    exact hrun
  · rw [hused, Tree.count, length_map, length_slice]
    omega
  · rw [hdone.kept i (by omega)]
    exact (store_of_ne (by omega) _).trans (store_of_ne hi _)
  · have hat : st'.nodes node = { st.nodes node with
        type := .group, firstchild := st.freenodes - node, numchildren := n } := by
      rw [hdone.kept node (by omega)]
      exact (store_of_ne (by omega) _).trans (store_self _ _ _)
    have hfirst : st'.nodes st.freenodes = { nodes st.freenodes with type := .leaf, data := (st.leafs p).data } := by
      rw [hdone.kept st.freenodes (by omega)]
      exact store_self _ _ _
    rw [Tree.At, hsame node (.inl rfl), hat]
    refine ⟨rfl, by simp, fun j d hd => ?_⟩
    dsimp only
    rw [getElem?_map, map_eq_some_iff] at hd
    obtain ⟨ℓ, hℓ, rfl⟩ := hd
    obtain ⟨hj, hget⟩ := List.getElem?_eq_some_iff.mp hℓ
    rw [getElem_slice] at hget
    rw [length_slice] at hj
    have hidx : node + (st.freenodes - node) + j = st.freenodes + j := by omega
    rw [hidx, Tree.LeafAt, hsame _ (.inr ⟨by omega, by omega⟩), ← hget]
    rcases Nat.eq_zero_or_pos j with rfl | hpos
    · rw [Nat.add_zero, hfirst]
      exact ⟨rfl, rfl⟩
    · exact hdone.at_child j hpos (by omega)

/-- A node with two children. -/
theorem buildTree_axis (h8 : 8 ≤ ls.length) : buildTree A ls =
    (buildTree A ((sorted A (splitAxis A ls) ls).take (ls.length / 2))).bind fun left =>
      (buildTree A ((sorted A (splitAxis A ls) ls).drop (ls.length / 2))).map fun right =>
        (.axis (splitAxis A ls) left.1 right.1 ![left.2.min (splitAxis A ls), right.2.min (splitAxis A ls)]
          ![left.2.max (splitAxis A ls), right.2.max (splitAxis A ls)], left.2.join right.2) := by
  match ls, h8 with
  | first :: rest, h8 =>
    have hne : rest ≠ [] := by
      rintro rfl
      simp at h8
    rw [buildTree, if_neg hne, if_pos h8]

omit [LinearOrder α] in
theorem Tree.count_pos (tree : Tree α δ) : 0 < tree.count := by
  cases tree <;> simp [count]

/-- `BIH_BuildNode` leaves the tree of its leafs, and returns its bounds. -/
theorem buildNode_spec (hn : 0 < n) (hbuilt : buildTree A (st.leafs.slice p n) = some (tree, b))
    (hp : p + n ≤ numleafs) (hnode : node < st.freenodes) (hfree : st.freenodes + tree.count ≤ numnodes + 1) : ∃ st',
    buildNode A numleafs numnodes n node p st = some (b, st') ∧ Done tree n node p st st' := by
  induction hm : n using Nat.strong_induction_on generalizing n node p st tree b with
  | _ m ih =>
    subst hm
    have hcons : st.leafs.slice p n = st.leafs p :: st.leafs.slice (p + 1) (n - 1) := by
      rw [← slice_succ, Nat.sub_add_cancel hn]
    have hpos := tree.count_pos
    rcases Nat.lt_or_ge n 2 with h2 | h2
    · obtain rfl : n = 1 := by omega
      rw [slice_one, buildTree, if_pos rfl] at hbuilt
      cases hbuilt
      exact buildNode_one hp (by omega)
    rcases Nat.lt_or_ge n 8 with h8 | h8
    · have hrest : st.leafs.slice (p + 1) (n - 1) ≠ [] := ne_nil_of_length_pos (by rw [length_slice]; omega)
      have hlen : ¬ 8 ≤ (st.leafs p :: st.leafs.slice (p + 1) (n - 1)).length := by
        rw [← hcons, length_slice]
        omega
      rw [hcons, buildTree, if_neg hrest, if_neg hlen, ← hcons] at hbuilt
      cases hbuilt
      rw [Tree.count, length_map, length_slice] at hfree
      exact buildNode_group (by omega) h8 hp hnode (by omega)
    · set axis := splitAxis A (st.leafs.slice p n) with haxis
      rw [buildTree_axis (by rwa [length_slice]), length_slice, ← haxis, bind_eq_some_iff] at hbuilt
      obtain ⟨⟨left, bl⟩, hleft, hbuilt⟩ := hbuilt
      obtain ⟨⟨right, br⟩, hright, hbuilt⟩ := map_eq_some_iff.mp hbuilt
      cases hbuilt
      have hfree : st.freenodes + (left.count + right.count + 1) ≤ numnodes + 1 := hfree
      have hl := left.count_pos
      have hr := right.count_pos
      obtain ⟨leafs', scratch', hsort, hsorted, -, -⟩ :=
        BihSort.sortLeafs_spec (sortCmp A axis) n (fun i => st.leafs (p + i)) st.scratch
      rw [slice_shift] at hsorted
      change _ = sorted A axis (st.leafs.slice p n) at hsorted
      set nodes := st.nodes.store node
        { st.nodes node with type := .axis axis, firstchild := st.freenodes - node } with hnodes
      set st₁ : State α δ := ⟨st.leafs.blit p (leafs'.slice 0 n), scratch', nodes, st.freenodes + 2⟩ with hst₁
      have hslice : st₁.leafs.slice p n = sorted A axis (st.leafs.slice p n) := by
        rw [← hsorted]
        exact BihSort.slice_blit_of_length (length_slice _ _ _)
      have hkept₁ : ∀ i, i < p ∨ p + n ≤ i → st₁.leafs i = st.leafs i := by
        rintro i (hi | hi)
        · exact blit_apply_lt _ _ hi
        · exact blit_apply_ge _ _ (by rwa [length_slice])
      -- the left half
      rw [← hslice, take_slice _ _ _ _ (Nat.div_le_self n 2)] at hleft
      obtain ⟨stl, hrunl, hdonel⟩ := @ih (n / 2) (by omega) _ _ (n / 2) st.freenodes p st₁ (by omega) hleft (by omega)
        (show st.freenodes < st.freenodes + 2 by omega) (show st.freenodes + 2 + left.count ≤ numnodes + 1 by omega) rfl
      have husedl : stl.freenodes + 1 = st.freenodes + 2 + left.count := hdonel.freenodes
      -- the right half
      have hsame : stl.leafs.slice (p + n / 2) (n - n / 2) = st₁.leafs.slice (p + n / 2) (n - n / 2) :=
        slice_congr fun i hi _ => hdonel.leafs_kept i (.inr hi)
      rw [← hslice, drop_slice, ← hsame] at hright
      obtain ⟨str, hrunr, hdoner⟩ := @ih (n - n / 2) (by omega) _ _ (n - n / 2) (st.freenodes + 1) (p + n / 2) stl
        (by omega) hright (by omega) (by omega) (by omega) rfl
      have husedr := hdoner.freenodes
      have hat : str.nodes node = nodes node := by
        rw [hdoner.nodes_kept node (by omega) (.inl (by omega))]
        exact hdonel.nodes_kept node (by omega) (.inl (show node < st.freenodes + 2 by omega))
      have hrun : buildNode A numleafs numnodes n node p st = some (bl.join br, { str with
          nodes := str.nodes.store node { str.nodes node with
            cmin := ![bl.min axis, br.min axis], cmax := ![bl.max axis, br.max axis] } }) := by
        rw [buildNode, if_neg (by omega), if_pos h8, if_pos hp]
        dsimp only
        rw [← haxis, hsort, bind_some, put_eq_store (by omega), bind_some, hrunl, bind_some, hrunr,
          bind_some, put_eq_store (by omega), map_some]
      refine ⟨_, hrun, ?_, fun i hi => ?_, fun i hi hi' => ?_, fun ns hns => ?_⟩
      · rw [Tree.count]
        dsimp only
        omega
      · rw [hdoner.leafs_kept i (by omega), hdonel.leafs_kept i (by omega), hkept₁ i hi]
      · dsimp only at hi' ⊢
        rw [store_of_ne hi, hdoner.nodes_kept i (by omega) (by omega)]
        exact (hdonel.nodes_kept i (by omega) (show i < st.freenodes + 2 ∨ _ by omega)).trans (store_of_ne hi _)
      · dsimp only at hns
        have hroot : ns node = { str.nodes node with
            cmin := ![bl.min axis, br.min axis], cmax := ![bl.max axis, br.max axis] } := by
          rw [hns node (.inl rfl), store_self]
        have hrest : ∀ i, st.freenodes ≤ i → i < str.freenodes → ns i = str.nodes i := fun i hi hi' => by
          rw [hns i (.inr ⟨hi, hi'⟩), store_of_ne (by omega)]
        have hrec : nodes node = { st.nodes node with type := .axis axis, firstchild := st.freenodes - node } :=
          store_self _ _ _
        rw [Tree.At, hroot, hat, hrec]
        have hchild : node + (st.freenodes - node) = st.freenodes := by omega
        refine ⟨rfl, rfl, rfl, ?_, ?_⟩
        · dsimp only
          rw [hchild]
          refine hdonel.at_node ns fun i hi => ?_
          have hi : i = st.freenodes ∨ st.freenodes + 2 ≤ i ∧ i < stl.freenodes := hi
          rw [hrest i (by omega) (by omega), hdoner.nodes_kept i (by omega) (by omega)]
        · dsimp only
          rw [hchild]
          exact hdoner.at_node ns fun i hi => hrest i (by omega) (by omega)

end Code

/-! ## Complete and bounded -/

theorem sortCmp_le_zero_iff {axis : Fin 3} {a b : Leaf α δ} : sortCmp A axis a b ≤ 0 ↔ key A axis a ≤ key A axis b := by
  unfold sortCmp
  split_ifs with hlt hgt
  · simp [hlt.le]
  · simp [hgt]
  · simp [not_lt.mp hgt]

theorem le_sortCmp {axis : Fin 3} {a b : Leaf α δ} :
    BihSort.le (sortCmp A axis) a b = true ↔ key A axis a ≤ key A axis b := by
  rw [BihSort.le, decide_eq_true_iff, sortCmp_le_zero_iff]

/-- The array is sorted, and leafs with equal keys are in the order as they were. -/
structure Sorts (A : Arith α) (axis : Fin 3) (n : ℕ) (leafs leafs' : Mem (Leaf α δ)) : Prop where
  perm : (leafs'.slice 0 n).Perm (leafs.slice 0 n)
  ordered : (leafs'.slice 0 n).Pairwise fun a b => sortCmp A axis a b ≤ 0
  stable : ∀ k, (leafs'.slice 0 n).filter (key A axis · = k) = (leafs.slice 0 n).filter (key A axis · = k)
  kept : ∀ i, n ≤ i → leafs' i = leafs i

theorem sortLeafs_sorts (A : Arith α) (axis : Fin 3) (n : ℕ) (leafs scratch : Mem (Leaf α δ)) : ∃ leafs' scratch',
    BihSort.sortLeafs (sortCmp A axis) n leafs scratch = some (leafs', scratch') ∧ Sorts A axis n leafs leafs' ∧
      ∀ i, n ≤ i → scratch' i = scratch i := by
  obtain ⟨leafs', scratch', hrun, hsort, hkept, hkept'⟩ := BihSort.sortLeafs_spec (sortCmp A axis) n leafs scratch
  have htrans : ∀ a b c : Leaf α δ, BihSort.le (sortCmp A axis) a b → BihSort.le (sortCmp A axis) b c →
      BihSort.le (sortCmp A axis) a c := by
    intro a b c hab hbc
    rw [le_sortCmp] at hab hbc ⊢
    exact hab.trans hbc
  have htotal : ∀ a b : Leaf α δ, BihSort.le (sortCmp A axis) a b || BihSort.le (sortCmp A axis) b a := by
    intro a b
    rw [Bool.or_eq_true, le_sortCmp, le_sortCmp]
    exact le_total _ _
  refine ⟨leafs', scratch', hrun, ⟨?_, ?_, fun k => ?_, hkept⟩, hkept'⟩
  · rw [hsort]
    exact StableMerge.sort_perm _ _
  · rw [hsort]
    refine (StableMerge.pairwise_sort htrans htotal _).imp fun {a b} hab => ?_
    exact sortCmp_le_zero_iff.mpr (le_sortCmp.mp hab)
  · rw [hsort]
    by_cases hk : ∃ c ∈ leafs.slice 0 n, key A axis c = k
    · -- the leafs with this key are those that tie with one of them
      obtain ⟨c, -, rfl⟩ := hk
      have hties : (fun ℓ : Leaf α δ => decide (key A axis ℓ = key A axis c)) =
          StableMerge.Ties (BihSort.le (sortCmp A axis)) c := by
        funext ℓ
        rw [Bool.eq_iff_iff, StableMerge.Ties, Bool.and_eq_true, le_sortCmp, le_sortCmp, decide_eq_true_iff]
        exact ⟨fun h => ⟨h.ge, h.le⟩, fun h => le_antisymm h.2 h.1⟩
      rw [hties]
      exact StableMerge.filter_sort htrans htotal c _
    · have hnone : ∀ ls : List (Leaf α δ), ls.Perm (leafs.slice 0 n) → ls.filter (key A axis · = k) = [] := by
        intro ls hperm
        rw [filter_eq_nil_iff]
        exact fun c hc h => hk ⟨c, hperm.mem_iff.mp hc, of_decide_eq_true h⟩
      rw [hnone _ (StableMerge.sort_perm _ _), hnone _ (.refl _)]

/-- Every call of `BIH_BuildNode` that has nodes enough returns a box that contains its leafs. -/
theorem buildNode_contains (A : Arith α) {n p node numleafs numnodes : ℕ} {st : State α δ} (hn : 0 < n)
    (hp : p + n ≤ numleafs) (hnode : node < st.freenodes) (hfree : st.freenodes + (n * 2 - 1) ≤ numnodes + 1) :
    ∃ b st', buildNode A numleafs numnodes n node p st = some (b, st') ∧ ∀ ℓ ∈ st.leafs.slice p n, b.Contains ℓ := by
  have hne : st.leafs.slice p n ≠ [] := ne_nil_of_length_pos (by rwa [length_slice])
  obtain ⟨tree, b, order, hbuilt, hperm, hholds, -, hcount⟩ := buildTree_spec (A := A) (st.leafs.slice p n) hne
  rw [length_slice] at hcount
  obtain ⟨st', hrun, -⟩ := buildNode_spec hn hbuilt hp hnode (show st.freenodes + tree.count ≤ numnodes + 1 by omega)
  exact ⟨b, st', hrun, fun ℓ hℓ => hholds.contains ℓ (hperm.mem_iff.mpr hℓ)⟩

/-- The sorts are stable; the tree has every leaf once, in boxes and slabs that contain it, and at most `2n-1` nodes; and
it is made of the leafs alone, whatever was in the scratch array and in the nodes. -/
theorem build_spec (A : Arith α) {n : ℕ} (hn : 1 ≤ n) (leafs : Mem (Leaf α δ)) :
    (∀ axis m ls scratch, ∃ leafs' scratch',
      BihSort.sortLeafs (sortCmp A axis) m ls scratch = some (leafs', scratch') ∧
        Sorts (δ := δ) A axis m ls leafs' ∧ ∀ i, m ≤ i → scratch' i = scratch i) ∧
      (∀ m node p numnodes (st : State α δ), 0 < m → p + m ≤ n → node < st.freenodes →
        st.freenodes + (m * 2 - 1) ≤ numnodes + 1 →
        ∃ b st', buildNode A n numnodes m node p st = some (b, st') ∧ ∀ ℓ ∈ st.leafs.slice p m, b.Contains ℓ) ∧
      ∃ tree b order, buildTree A (leafs.slice 0 n) = some (tree, b) ∧ order.Perm (leafs.slice 0 n) ∧
        Holds order tree b ∧ tree.count ≤ n * 2 - 1 ∧
        ∀ scratch nodes, ∃ st, build A n leafs scratch nodes = some st ∧ st.freenodes = tree.count ∧
          tree.At st.nodes 0 := by
  refine ⟨fun axis m ls scratch => sortLeafs_sorts A axis m ls scratch,
    fun m node p numnodes st hm hp hnode hfree => buildNode_contains A hm hp hnode hfree, ?_⟩
  have hne : leafs.slice 0 n ≠ [] := List.ne_nil_of_length_pos (by rwa [Mem.length_slice])
  obtain ⟨tree, b, order, hbuilt, hperm, hholds, -, hcount⟩ := buildTree_spec (A := A) (leafs.slice 0 n) hne
  rw [Mem.length_slice] at hcount
  refine ⟨tree, b, order, hbuilt, hperm, hholds, by omega, fun scratch nodes => ?_⟩
  obtain ⟨st, hrun, hdone⟩ := @buildNode_spec _ _ _ A tree b n (n * 2 - 1) n 0 0 ⟨leafs, scratch, nodes, 1⟩ hn hbuilt
    (by omega) one_pos (by dsimp only; omega)
  have hused : st.freenodes + 1 = 1 + tree.count := hdone.freenodes
  refine ⟨st, ?_, by omega, hdone.at_node st.nodes fun _ _ => rfl⟩
  rw [build, hrun, Option.bind_some, if_neg (by dsimp only; omega)]

/-- Exact arithmetic. -/
def intArith : Arith ℤ where
  add x y := x + y
  avg x y := (x + y) / 2
  down x := x - 1
  up x := x + 1
  down_le x := by omega
  le_up x := by omega

/-- Two unit cubes next to each other. -/
def twoCubes : Mem (Leaf ℤ ℕ) := fun i => ⟨fun _ => i, fun _ => i + 1, i⟩

theorem build_twoCubes : ∃ tree b order, buildTree intArith (twoCubes.slice 0 2) = some (tree, b) ∧
    order.Perm (twoCubes.slice 0 2) ∧ Holds order tree b ∧ tree.count ≤ 3 := by
  obtain ⟨tree, b, order, hbuilt, hperm, hholds, hcount, -⟩ := (build_spec intArith (show 1 ≤ 2 by omega) twoCubes).2.2
  exact ⟨tree, b, order, hbuilt, hperm, hholds, hcount⟩

end BihBuild

end FteQuake
