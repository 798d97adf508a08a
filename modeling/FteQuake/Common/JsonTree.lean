import FteQuake.Common.Json

/-!
# The tree of JSON nodes

`JSON_CreateNode`, `JSON_Orphan` and `JSON_Destroy` of `json.c` on a heap of nodes. An address is the number of
the node in order of creation; `none` is an access to a node that was freed, or behind an array.

When a child is taken out of an object, `childlink` is left where it was if the child was the last one, and is set
to the link that the child was found at if it was not, so that it never addresses the last link
afterwards. The tree stays intact as long as the children of an object are destroyed with it
(`jsonTree_intact`).
-/

namespace FteQuake

open List Option

namespace JsonTree

/-! ## Nodes -/

/-- The address of a pointer in a node: its `child` or its `sibling`. -/
inductive Link
  | child (p : ℕ)
  | sibling (p : ℕ)
  deriving DecidableEq

/-- `childlink` or `array` of the union, where `arraymax` says which it is. -/
inductive Links
  | chain (childlink : Link)
  | table (arraymax : ℕ) (array : ℕ → Option ℕ)

/-- `json_t`, but for the body and `used`. -/
structure Node where
  type : JsonType
  name : List QByte
  parent : Option ℕ
  child : Option ℕ
  sibling : Option ℕ
  links : Links

/-- The nodes that were not freed, and how many were created. -/
structure Heap where
  node : ℕ → Option Node
  next : ℕ

/-- The value of the digits at the front. -/
def digitsValue (value : ℕ) : List QByte → ℕ
  | [] => value
  | c :: s => if 0x30 ≤ c ∧ c ≤ 0x39 then digitsValue (value * 10 + (c.toNat - 0x30)) s else value

/-- `atoi`. -/
def atoi (s : List QByte) : ℤ :=
  let s := s.dropWhile fun c => c = 0x20 ∨ (0x09 ≤ c ∧ c ≤ 0x0d)
  if s.head? = some 0x2d then -(digitsValue 0 s.tail : ℤ)
  else if s.head? = some 0x2b then digitsValue 0 s.tail
  else digitsValue 0 s

/-- `atoi(name)` as a `size_t`. -/
def indexOf (name : List QByte) : ℕ := (atoi name % 2 ^ 64).toNat

namespace Heap

def set (h : Heap) (j : ℕ) (n : Node) : Heap := { h with node := fun k => if k = j then some n else h.node k }

def free (h : Heap) (j : ℕ) : Heap := { h with node := fun k => if k = j then none else h.node k }

/-- What is at a link. -/
def read (h : Heap) : Link → Option (Option ℕ)
  | .child p => (h.node p).map Node.child
  | .sibling p => (h.node p).map Node.sibling

def write (h : Heap) (l : Link) (v : Option ℕ) : Option Heap :=
  match l with
  | .child p => (h.node p).map fun n => h.set p { n with child := v }
  | .sibling p => (h.node p).map fun n => h.set p { n with sibling := v }

end Heap

/-! ## Creation -/

/-- The node that `JSON_CreateNode` makes at the address `j`. -/
def newNode (j : ℕ) (parent : Option ℕ) (name : List QByte) (type : JsonType) : Node where
  type := type
  name := name
  parent := parent
  child := none
  sibling := none
  links := if type = .array then .table 32 fun _ => none else .chain (.child j)

/-- `arraymax` when there is to be a slot of the index. -/
def grownMax (arraymax idx : ℕ) : ℕ :=
  if arraymax ≤ idx then max ((idx + 1) % 2 ^ 64) (arraymax * 2) else arraymax

/-- `JSON_CreateNode` for a parent that is an array, behind the allocation of `j`. -/
def createElement (h : Heap) (p j idx arraymax : ℕ) (array : ℕ → Option ℕ) (pn : Node) : Option Heap :=
  if idx < grownMax arraymax idx then
    let array' := fun i => if i = idx then some j else if i < arraymax then array i else none
    let pn := { pn with links := .table (grownMax arraymax idx) array' }
    if idx = 0 then some (h.set p { pn with child := some j })
    else
      match array' (idx - 1) with
      | none => some (h.set p pn)
      | some k => ((h.set p pn).node k).map fun kn => (h.set p pn).set k { kn with sibling := some j }
  else none

/-- `JSON_CreateNode`. -/
def jsonCreateNode (h : Heap) (parent : Option ℕ) (name : List QByte) (type : JsonType) : Option Heap :=
  let j := h.next
  let h := { h.set j (newNode j parent name type) with next := j + 1 }
  match parent with
  | none => some h
  | some p =>
    (h.node p).bind fun pn =>
      match pn.links with
      | .table arraymax array => createElement h p j (indexOf name) arraymax array pn
      | .chain childlink =>
        (h.write childlink (some j)).bind fun h =>
          (h.node p).map fun pn => h.set p { pn with links := .chain (.sibling j) }

/-! ## Destruction -/

/-- The loop of `JSON_Orphan`, for so many rounds. -/
def orphanLoop (p t : ℕ) : ℕ → Heap → Link → Option Heap
  | 0, _, _ => none
  | fuel + 1, h, l =>
    (h.read l).bind fun v =>
      match v with
      | none => some h
      | some c =>
        if c = t then
          (h.node t).bind fun n =>
            (h.write l n.sibling).bind fun h =>
              if n.sibling.isSome then (h.node p).map fun pn => h.set p { pn with links := .chain l } else some h
        else orphanLoop p t fuel h (.sibling c)

/-- `JSON_Orphan`, where a chain has no more rounds than nodes were created. -/
def jsonOrphan (h : Heap) (t : ℕ) : Option Heap :=
  (h.node t).bind fun n =>
    match n.parent with
    | none => some h
    | some p =>
      ((h.node p).bind fun pn =>
        match pn.links with
        | .table arraymax array =>
          let idx := indexOf n.name
          if idx < arraymax then
            some (h.set p { pn with links := .table arraymax fun i => if i = idx then none else array i })
          else if idx = arraymax then none
          else some h
        | .chain _ => orphanLoop p t (h.next + 1) h (.child p)).bind fun h =>
          (h.node t).map fun n => h.set t { n with parent := none, sibling := none }

/-- `while(t->child) JSON_Destroy(t->child)`, for so many rounds. -/
def destroyChildren (destroy : Heap → ℕ → Option Heap) (t : ℕ) : ℕ → Heap → Option Heap
  | 0, _ => none
  | fuel + 1, h =>
    (h.node t).bind fun n =>
      match n.child with
      | none => some h
      | some c => (destroy h c).bind (destroyChildren destroy t fuel)

/-- The loop over the array, for these indices. -/
def destroySlots (destroy : Heap → ℕ → Option Heap) (t : ℕ) : List ℕ → Heap → Option Heap
  | [], h => some h
  | i :: is, h =>
    (h.node t).bind fun n =>
      match n.links with
      | .chain _ => none
      | .table _ array =>
        match array i with
        | none => destroySlots destroy t is h
        | some c => (destroy h c).bind (destroySlots destroy t is)

/-- `JSON_Destroy` of a node, for so many levels and rounds. -/
def jsonDestroy : ℕ → Heap → ℕ → Option Heap
  | 0, _, _ => none
  | fuel + 1, h, t =>
    (h.node t).bind fun n =>
      (match n.links with
      | .table arraymax _ => destroySlots (jsonDestroy fuel) t (List.range arraymax) h
      | .chain _ => destroyChildren (jsonDestroy fuel) t fuel h).bind fun h =>
        (jsonOrphan h t).map (Heap.free · t)

/-! ## Runs -/

/-- A call of `JSON_CreateNode` or `JSON_Destroy`. -/
inductive Op
  | create (parent : Option ℕ) (name : List QByte) (type : JsonType)
  | destroy (t : ℕ)

/-- What a call does to the heap; destruction ends after some number of levels and rounds. -/
def Exec (h : Heap) : Op → Heap → Prop
  | .create parent name type, h' => jsonCreateNode h parent name type = some h'
  | .destroy t, h' => ∃ F, ∀ fuel ≥ F, jsonDestroy fuel h t = some h'

/-- A node is a child of another. -/
def IsChild (h : Heap) (p j : ℕ) : Prop := ∃ n, h.node j = some n ∧ n.parent = some p

/-- The condition: a node is destroyed that is a root or an element of an array; an element is created with an index
from 0 up to what an `int` holds that no other element of the array has. -/
def Meets (h : Heap) : Op → Prop
  | .create none _ _ => True
  | .create (some p) name _ => ∃ pn, h.node p = some pn ∧
      ∀ arraymax array, pn.links = .table arraymax array → 0 ≤ atoi name ∧ atoi name < 2 ^ 31 ∧
        ∀ j n, h.node j = some n → n.parent = some p → indexOf n.name ≠ indexOf name
  | .destroy t => ∃ n, h.node t = some n ∧
      ∀ p pn, n.parent = some p → h.node p = some pn → ∃ arraymax array, pn.links = .table arraymax array

/-- The nodes that a call is given are live. -/
def Live (h : Heap) : Op → Prop
  | .create none _ _ => True
  | .create (some p) _ _ => ∃ pn, h.node p = some pn
  | .destroy t => ∃ n, h.node t = some n

/-- The heaps of the runs whose calls meet a condition. -/
inductive Run (C : Heap → Op → Prop) : Heap → Prop
  | start : Run C ⟨fun _ => none, 0⟩
  | step {h h' : Heap} {op : Op} : Run C h → C h op → Exec h op h' → Run C h'

/-- The siblings from a pointer on. -/
def Chain (h : Heap) : Option ℕ → List ℕ → Prop
  | v, [] => v = none
  | v, c :: cs => v = some c ∧ ∃ n, h.node c = some n ∧ Chain h n.sibling cs

/-- The link behind the last of some siblings. -/
def lastLink (p : ℕ) (cs : List ℕ) : Link :=
  match cs.getLast? with
  | none => .child p
  | some c => .sibling c

/-- The children of a node are where they must be: those of an object in the chain from `child` on, in order of
creation and `childlink` behind the last of them, those of an array at their indices. -/
def Intact (h : Heap) (p : ℕ) (n : Node) : Prop :=
  match n.links with
  | .chain childlink => ∃ cs, Chain h n.child cs ∧ cs.Pairwise (· < ·) ∧ (∀ j, j ∈ cs ↔ IsChild h p j) ∧
      childlink = lastLink p cs
  | .table arraymax array =>
      (∀ i < arraymax, ∀ j, array i = some j ↔ ∃ m, h.node j = some m ∧ m.parent = some p ∧ indexOf m.name = i) ∧
      ∀ j m, h.node j = some m → m.parent = some p → indexOf m.name < arraymax

/-! ## The nodes below a node -/

/-- A node is another one or below it. -/
inductive Under (h : Heap) (t : ℕ) : ℕ → Prop
  | self {n : Node} : h.node t = some n → Under h t t
  | step {j k : ℕ} {n : Node} : h.node j = some n → n.parent = some k → Under h t k → Under h t j

/-- Every node was created, and after its parent, which was not freed. -/
structure Rooted (h : Heap) : Prop where
  below : ∀ j n, h.node j = some n → j < h.next
  parent : ∀ j n p, h.node j = some n → n.parent = some p → p < j ∧ ∃ pn, h.node p = some pn

/-- What of a child matters to its parent. -/
def Node.place (n : Node) : List QByte × Option ℕ × Option ℕ := (n.name, n.parent, n.sibling)

/-- Two heaps have the same children of a node. -/
def SameChildren (h h' : Heap) (p : ℕ) : Prop :=
  ∀ j (v : List QByte × Option ℕ × Option ℕ), v.2.1 = some p →
    ((∃ n, h'.node j = some n ∧ n.place = v) ↔ ∃ n, h.node j = some n ∧ n.place = v)

/-- As `Intact`, but for the order and `childlink`. -/
def Held (h : Heap) (p : ℕ) (n : Node) : Prop :=
  match n.links with
  | .chain _ => ∃ cs, Chain h n.child cs ∧ cs.Nodup ∧ ∀ j, j ∈ cs ↔ IsChild h p j
  | .table arraymax array =>
      (∀ i < arraymax, ∀ j, array i = some j ↔ ∃ m, h.node j = some m ∧ m.parent = some p ∧ indexOf m.name = i) ∧
      ∀ j m, h.node j = some m → m.parent = some p → indexOf m.name < arraymax

section Under

variable {h h' : Heap} {t c j p : ℕ} {n : Node}

theorem Under.le (hr : Rooted h) (hu : Under h t j) : t ≤ j := by
  induction hu with
  | self _ => exact le_rfl
  | step hn hp _ ih => exact ih.trans (hr.parent _ _ _ hn hp).1.le

theorem IsChild.under (hc : IsChild h t c) (hr : Rooted h) : Under h t c := by
  obtain ⟨n, hn, hp⟩ := hc
  obtain ⟨-, pn, hpn⟩ := hr.parent c n t hn hp
  exact .step hn hp (.self hpn)

theorem IsChild.lt (hc : IsChild h t c) (hr : Rooted h) : t < c := by
  obtain ⟨n, hn, hp⟩ := hc
  exact (hr.parent c n t hn hp).1

theorem Under.trans (hu : Under h t c) (hc : Under h c j) : Under h t j := by
  induction hc with
  | self _ => exact hu
  | step hn hp _ ih => exact .step hn hp ih

/-- What is below a node is the node or below one of its children. -/
theorem Under.eq_or (hu : Under h t j) : j = t ∨ ∃ c, IsChild h t c ∧ Under h c j := by
  induction hu with
  | self _ => exact .inl rfl
  | @step j k n hn hp _ ih =>
    rcases ih with rfl | ⟨c, hc, hk⟩
    · exact .inr ⟨j, ⟨n, hn, hp⟩, .self hn⟩
    · exact .inr ⟨c, hc, .step hn hp hk⟩

/-- Of two nodes above a third, one is above the other. -/
theorem Under.linear {a b : ℕ} (ha : Under h a j) (hb : Under h b j) : Under h a b ∨ Under h b a := by
  induction ha with
  | self _ => exact .inr hb
  | @step j k n hn hp hk ih =>
    cases hb with
    | self _ => exact .inl (.step hn hp hk)
    | step hn' hp' hk' =>
      rw [hn] at hn'
      cases hn'
      rw [hp] at hp'
      cases hp'
      exact ih hk'

theorem not_under_parent (hr : Rooted h) (hc : IsChild h t c) : ¬Under h c t :=
  fun hu => absurd (hu.le hr) (not_le.mpr (hc.lt hr))

/-- The nodes below two children are not the same. -/
theorem IsChild.unique {c' : ℕ} (hr : Rooted h) (hc : IsChild h t c) (hc' : IsChild h t c') (hu : Under h c j)
    (hu' : Under h c' j) : c = c' := by
  have hone {a b : ℕ} (ha : IsChild h t a) (hb : IsChild h t b) (hab : Under h a b) : a = b := by
    obtain ⟨n, hn, hp⟩ := hb
    cases hab with
    | self _ => rfl
    | step hn' hp' hk =>
      rw [hn] at hn'
      cases hn'
      rw [hp] at hp'
      cases hp'
      exact absurd hk (not_under_parent hr ha)
  rcases hu.linear hu' with h₁ | h₁
  · exact hone hc hc' h₁
  · exact (hone hc' hc h₁).symm

theorem Chain.congr {v : Option ℕ} {cs : List ℕ} (hc : Chain h v cs)
    (hsame : ∀ c ∈ cs, ∀ n, h.node c = some n → ∃ n', h'.node c = some n' ∧ n'.sibling = n.sibling) :
    Chain h' v cs := by
  induction cs generalizing v with
  | nil => exact hc
  | cons c cs ih =>
    obtain ⟨rfl, n, hn, hrest⟩ := hc
    obtain ⟨n', hn', hsibling⟩ := hsame c (.head _) n hn
    exact ⟨rfl, n', hn', hsibling ▸ ih hrest fun c hc => hsame c (.tail _ hc)⟩

theorem SameChildren.isChild (hs : SameChildren h h' p) : IsChild h' p j ↔ IsChild h p j := by
  have hplace (h : Heap) : IsChild h p j ↔ ∃ v : List QByte × Option ℕ × Option ℕ, v.2.1 = some p ∧
      ∃ n, h.node j = some n ∧ n.place = v := by
    constructor
    · rintro ⟨n, hn, hp⟩
      exact ⟨n.place, hp, n, hn, rfl⟩
    · rintro ⟨v, hp, n, hn, rfl⟩
      exact ⟨n, hn, hp⟩
  rw [hplace, hplace]
  exact exists_congr fun v => and_congr_right fun hp => hs j v hp

theorem SameChildren.node (hs : SameChildren h h' p) (hc : IsChild h p j) (hn : h.node j = some n) :
    ∃ n', h'.node j = some n' ∧ n'.place = n.place := by
  obtain ⟨m, hm, hp⟩ := hc
  rw [hn] at hm
  cases hm
  exact (hs j n.place hp).mpr ⟨n, hn, rfl⟩

theorem SameChildren.chain (hs : SameChildren h h' p) {v : Option ℕ} {cs : List ℕ} (hc : Chain h v cs)
    (hcs : ∀ j, j ∈ cs ↔ IsChild h p j) : Chain h' v cs :=
  hc.congr fun c hc n hn => by
    obtain ⟨n', hn', hplace⟩ := hs.node ((hcs c).mp hc) hn
    exact ⟨n', hn', congrArg (·.2.2) hplace⟩

theorem SameChildren.table (hs : SameChildren h h' p) {arraymax : ℕ} {array : ℕ → Option ℕ}
    (htable : (∀ i < arraymax, ∀ j, array i = some j ↔
        ∃ m, h.node j = some m ∧ m.parent = some p ∧ indexOf m.name = i) ∧
      ∀ j m, h.node j = some m → m.parent = some p → indexOf m.name < arraymax) :
    (∀ i < arraymax, ∀ j, array i = some j ↔
        ∃ m, h'.node j = some m ∧ m.parent = some p ∧ indexOf m.name = i) ∧
      ∀ j m, h'.node j = some m → m.parent = some p → indexOf m.name < arraymax := by
  refine ⟨fun i hi j => (htable.1 i hi j).trans ⟨?_, ?_⟩, fun j m hm hp => ?_⟩
  · rintro ⟨m, hm, hp, hi⟩
    obtain ⟨m', hm', hplace⟩ := (hs j m.place hp).mpr ⟨m, hm, rfl⟩
    exact ⟨m', hm', (congrArg (·.2.1) hplace).trans hp, (congrArg (fun v => indexOf v.1) hplace).trans hi⟩
  · rintro ⟨m, hm, hp, hi⟩
    obtain ⟨m', hm', hplace⟩ := (hs j m.place hp).mp ⟨m, hm, rfl⟩
    exact ⟨m', hm', (congrArg (·.2.1) hplace).trans hp, (congrArg (fun v => indexOf v.1) hplace).trans hi⟩
  · obtain ⟨m', hm', hplace⟩ := (hs j m.place hp).mp ⟨m, hm, rfl⟩
    have hlt := htable.2 j m' hm' ((congrArg (·.2.1) hplace).trans hp)
    exact (congrArg (fun v => indexOf v.1) hplace : indexOf m'.name = indexOf m.name) ▸ hlt

theorem Held.congr (hs : SameChildren h h' p) (hn : Held h p n) : Held h' p n := by
  unfold Held at hn ⊢
  cases hlinks : n.links with
  | chain l =>
    simp only [hlinks] at hn ⊢
    obtain ⟨cs, hchain, hnodup, hmem⟩ := hn
    exact ⟨cs, hs.chain hchain hmem, hnodup, fun j => (hmem j).trans hs.isChild.symm⟩
  | table m a =>
    simp only [hlinks] at hn ⊢
    exact hs.table hn

theorem Intact.congr (hs : SameChildren h h' p) (hn : Intact h p n) : Intact h' p n := by
  unfold Intact at hn ⊢
  cases hlinks : n.links with
  | chain l =>
    simp only [hlinks] at hn ⊢
    obtain ⟨cs, hchain, hsorted, hmem, hlink⟩ := hn
    exact ⟨cs, hs.chain hchain hmem, hsorted, fun j => (hmem j).trans hs.isChild.symm, hlink⟩
  | table m a =>
    simp only [hlinks] at hn ⊢
    exact hs.table hn

theorem Intact.held (hn : Intact h p n) : Held h p n := by
  unfold Intact at hn
  unfold Held
  cases hlinks : n.links with
  | chain l =>
    simp only [hlinks] at hn ⊢
    obtain ⟨cs, hchain, hsorted, hmem, -⟩ := hn
    exact ⟨cs, hchain, hsorted.imp Nat.ne_of_lt, hmem⟩
  | table m a =>
    simp only [hlinks] at hn ⊢
    exact hn

end Under

/-! ## What destruction leaves -/

/-- The parent, when a node that is its first child or an element is taken out of it. -/
def afterOrphan (p : ℕ) (n pn : Node) : Node :=
  match pn.links with
  | .table arraymax array => { pn with links := .table arraymax fun i => if i = indexOf n.name then none else array i }
  | .chain l => { pn with child := n.sibling, links := .chain (if n.sibling.isSome then .child p else l) }

/-- A node that has a parent is its first child, or in a slot of it. -/
def Attached (h : Heap) (t : ℕ) (n : Node) : Prop :=
  ∀ p, n.parent = some p → p ≠ t ∧ ∃ pn, h.node p = some pn ∧
    match pn.links with
    | .table arraymax _ => indexOf n.name < arraymax
    | .chain _ => pn.child = some t

/-- A node and those below it are gone, its parent has lost it, and the others are as they were. -/
structure Removed (h h' : Heap) (t : ℕ) (n : Node) : Prop where
  next : h'.next = h.next
  gone : ∀ j, Under h t j → h'.node j = none
  rest : ∀ j, ¬Under h t j → n.parent ≠ some j → h'.node j = h.node j
  parent : ∀ p pn, n.parent = some p → h.node p = some pn → h'.node p = some (afterOrphan p n pn)

/-- A node that has lost some of its children, with what is below them. -/
structure Shrunk (h h' : Heap) (t : ℕ) (done : List ℕ) (n n' : Node) : Prop where
  next : h'.next = h.next
  self : h'.node t = some n'
  name : n'.name = n.name
  parent : n'.parent = n.parent
  sibling : n'.sibling = n.sibling
  children : ∀ c ∈ done, IsChild h t c
  gone : ∀ c ∈ done, ∀ j, Under h c j → h'.node j = none
  rest : ∀ j ≠ t, (∀ c ∈ done, ¬Under h c j) → h'.node j = h.node j

section Destroy

variable {h h' : Heap} {t c j : ℕ} {n n' m : Node} {done : List ℕ}

@[simp] theorem set_node (h : Heap) (j : ℕ) (n : Node) (k : ℕ) :
    (h.set j n).node k = if k = j then some n else h.node k := rfl

@[simp] theorem free_node (h : Heap) (j k : ℕ) : (h.free j).node k = if k = j then none else h.node k := rfl

/-- `JSON_Orphan` on a node that hangs where it must. -/
theorem jsonOrphan_spec (hn : h.node t = some n) (ha : Attached h t n) :
    ∃ h', jsonOrphan h t = some h' ∧ h'.next = h.next ∧ (∀ j ≠ t, n.parent ≠ some j → h'.node j = h.node j) ∧
      ∀ p pn, n.parent = some p → h.node p = some pn → h'.node p = some (afterOrphan p n pn) := by
  unfold jsonOrphan
  rw [hn, bind_some]
  cases hparent : n.parent with
  | none => exact ⟨h, rfl, rfl, fun _ _ _ => rfl, nofun⟩
  | some p =>
    obtain ⟨hne, pn, hpn, hwhere⟩ := ha p hparent
    simp only [hpn, bind_some]
    cases hlinks : pn.links with
    | table arraymax array =>
      simp only [hlinks] at hwhere
      simp only [if_pos hwhere, bind_some, set_node, if_neg hne.symm, hn, map_some]
      refine ⟨_, rfl, rfl, fun j hj hjp => ?_, fun p' pn' hp' hpn' => ?_⟩
      · rw [set_node, if_neg hj, set_node, if_neg fun heq : j = p => hjp (heq ▸ rfl)]
      · cases hp'
        rw [hpn] at hpn'
        cases hpn'
        rw [set_node, if_neg hne, set_node, if_pos rfl, afterOrphan, hlinks]
    | chain l =>
      simp only [hlinks] at hwhere
      have hread : h.read (.child p) = some (some t) := by rw [Heap.read, hpn, map_some, hwhere]
      have hwrite : h.write (.child p) n.sibling = some (h.set p { pn with child := n.sibling }) := by
        rw [Heap.write, hpn, map_some]
      simp only [orphanLoop, hread, bind_some, if_true, hn, hwrite]
      by_cases hsibling : n.sibling.isSome
      · simp only [if_pos hsibling, set_node, if_true, map_some, bind_some, if_neg hne.symm, hn]
        refine ⟨_, rfl, rfl, fun j hj hjp => ?_, fun p' pn' hp' hpn' => ?_⟩
        · have hjp' : j ≠ p := fun heq => hjp (heq ▸ rfl)
          rw [set_node, if_neg hj, set_node, if_neg hjp', set_node, if_neg hjp']
        · cases hp'
          rw [hpn] at hpn'
          cases hpn'
          rw [set_node, if_neg hne, set_node, if_pos rfl, afterOrphan, hlinks]
          simp only [if_pos hsibling]
      · simp only [if_neg hsibling, bind_some, set_node, if_neg hne.symm, hn, map_some]
        refine ⟨_, rfl, rfl, fun j hj hjp => ?_, fun p' pn' hp' hpn' => ?_⟩
        · rw [set_node, if_neg hj, set_node, if_neg fun heq : j = p => hjp (heq ▸ rfl)]
        · cases hp'
          rw [hpn] at hpn'
          cases hpn'
          rw [set_node, if_neg hne, set_node, if_pos rfl, afterOrphan, hlinks]
          simp only [if_neg hsibling]

namespace Shrunk

theorem start (hn : h.node t = some n) : Shrunk h h t [] n n :=
  ⟨rfl, hn, rfl, rfl, rfl, nofun, nofun, fun _ _ _ => rfl⟩

theorem of_node (hs : Shrunk h h' t done n n') (hj : j ≠ t) (hm : h'.node j = some m) :
    h.node j = some m ∧ ∀ c ∈ done, ¬Under h c j := by
  have hout : ∀ c ∈ done, ¬Under h c j := fun c hc hu => by
    rw [hs.gone c hc j hu] at hm
    cases hm
  exact ⟨hs.rest j hj hout ▸ hm, hout⟩

theorem rooted (hs : Shrunk h h' t done n n') (hr : Rooted h) (hn : h.node t = some n) : Rooted h' := by
  refine ⟨fun j m hm => ?_, fun j m p hm hp => ?_⟩
  · rw [hs.next]
    by_cases hj : j = t
    · exact hj ▸ hr.below t n hn
    · exact hr.below j m (hs.of_node hj hm).1
  · by_cases hj : j = t
    · subst hj
      rw [hs.self] at hm
      cases hm
      obtain ⟨hlt, pn, hpn⟩ := hr.parent j n p hn (hs.parent ▸ hp)
      refine ⟨hlt, pn, (hs.rest p hlt.ne fun c hc hu => ?_).trans hpn⟩
      have := (hs.children c hc).lt hr
      have := hu.le hr
      omega
    · obtain ⟨hm', hout⟩ := hs.of_node hj hm
      obtain ⟨hlt, pn, hpn⟩ := hr.parent j m p hm' hp
      refine ⟨hlt, ?_⟩
      by_cases hpt : p = t
      · exact ⟨n', hpt ▸ hs.self⟩
      · exact ⟨pn, (hs.rest p hpt fun c hc hu => hout c hc (.step hm' hp hu)).trans hpn⟩

/-- What is below another child is as it was. -/
theorem below (hs : Shrunk h h' t done n n') (hr : Rooted h) (hc : IsChild h t c) (hnew : c ∉ done)
    (hu : Under h c j) : h'.node j = h.node j := by
  refine hs.rest j (fun heq => not_under_parent hr hc (heq ▸ hu)) fun c' hc' hu' => ?_
  exact hnew ((hc.unique hr (hs.children c' hc') hu hu') ▸ hc')

theorem under_iff (hs : Shrunk h h' t done n n') (hr : Rooted h) (hn : h.node t = some n) (hc : IsChild h t c)
    (hnew : c ∉ done) : Under h' c j ↔ Under h c j := by
  have hr' := hs.rooted hr hn
  constructor
  · intro hu
    induction hu with
    | self _ =>
      obtain ⟨m, hm, -⟩ := hc
      exact .self hm
    | @step j k m hm hp hk ih =>
      have hlt := hc.lt hr
      have hle := hk.le hr'
      have := (hr'.parent j m k hm hp).1
      exact .step (hs.of_node (by omega) hm).1 hp ih
  · intro hu
    induction hu with
    | self hm => exact .self ((hs.below hr hc hnew (.self hm)).trans hm)
    | step hm hp hk ih => exact .step ((hs.below hr hc hnew (.step hm hp hk)).trans hm) hp ih

theorem sameChildren (hs : Shrunk h h' t done n n') (hr : Rooted h) (hn : h.node t = some n) (hc : IsChild h t c)
    (hnew : c ∉ done) (hu : Under h c j) : SameChildren h h' j := by
  intro k v hv
  constructor
  · rintro ⟨m, hm, rfl⟩
    have hr' := hs.rooted hr hn
    have hlt := hc.lt hr
    have hle := hu.le hr
    have := (hr'.parent k m j hm hv).1
    exact ⟨m, (hs.of_node (by omega) hm).1, rfl⟩
  · rintro ⟨m, hm, rfl⟩
    exact ⟨m, (hs.below hr hc hnew (.step hm hv hu)).trans hm, rfl⟩

/-- One more child is destroyed. -/
theorem step (hs : Shrunk h h' t done n n') (hr : Rooted h) (hn : h.node t = some n) (hc : IsChild h t c)
    (hnew : c ∉ done) {nc : Node} (hnc : h.node c = some nc) {h₂ : Heap} (hremoved : Removed h' h₂ c nc) :
    Shrunk h h₂ t (c :: done) n (afterOrphan t nc n') := by
  have hparent : nc.parent = some t := by
    obtain ⟨m, hm, hp⟩ := hc
    rw [hnc] at hm
    cases hm
    exact hp
  have hunder {j : ℕ} := @under_iff h h' t c j n n' done hs hr hn hc hnew
  have hkeeps (p : ℕ) : (afterOrphan p nc n').name = n'.name ∧ (afterOrphan p nc n').parent = n'.parent ∧
      (afterOrphan p nc n').sibling = n'.sibling := by
    unfold afterOrphan
    split <;> exact ⟨rfl, rfl, rfl⟩
  refine ⟨hremoved.next.trans hs.next, hremoved.parent t n' hparent hs.self, (hkeeps t).1.trans hs.name,
    (hkeeps t).2.1.trans hs.parent, (hkeeps t).2.2.trans hs.sibling, fun c' hc' => ?_, fun c' hc' j hu => ?_,
    fun j hj hout => ?_⟩
  · rcases mem_cons.mp hc' with rfl | hc'
    · exact hc
    · exact hs.children c' hc'
  · rcases mem_cons.mp hc' with rfl | hc'
    · exact hremoved.gone j (hunder.mpr hu)
    · have hout : ¬Under h' c j := fun hu' => hnew ((hc.unique hr (hs.children c' hc') (hunder.mp hu') hu) ▸ hc')
      have hjt : j ≠ t := fun heq => not_under_parent hr (hs.children c' hc') (heq ▸ hu)
      rw [hremoved.rest j hout fun heq => hjt (some.inj (hparent.symm.trans heq)).symm]
      exact hs.gone c' hc' j hu
  · rw [hremoved.rest j (fun hu => hout c (.head _) (hunder.mp hu))
      fun heq => hj (some.inj (hparent.symm.trans heq)).symm]
    exact hs.rest j hj fun c' hc' => hout c' (.tail _ hc')

/-- When all children are gone, the node is taken out and freed. -/
theorem finish (hs : Shrunk h h' t done n n') (hr : Rooted h) (hn : h.node t = some n)
    (hall : ∀ c, IsChild h t c → c ∈ done) (ha : Attached h t n) :
    ∃ h₂, (jsonOrphan h' t).map (Heap.free · t) = some h₂ ∧ Removed h h₂ t n := by
  have hout (p : ℕ) (hp : n.parent = some p) : p ≠ t ∧ h'.node p = h.node p := by
    have hlt := (hr.parent t n p hn hp).1
    refine ⟨hlt.ne, hs.rest p hlt.ne fun c hc hu => ?_⟩
    have := (hs.children c hc).lt hr
    have := hu.le hr
    omega
  have hattached : Attached h' t n' := fun p hp => by
    rw [hs.parent] at hp
    obtain ⟨hne, pn, hpn, hwhere⟩ := ha p hp
    refine ⟨hne, pn, (hout p hp).2.trans hpn, ?_⟩
    rw [hs.name]
    exact hwhere
  obtain ⟨h₂, hrun, hnext, hrest, hparent⟩ := jsonOrphan_spec hs.self hattached
  rw [hrun, map_some]
  refine ⟨_, rfl, hnext.trans hs.next, fun j hu => ?_, fun j hu hj => ?_, fun p pn hp hpn => ?_⟩
  · rw [free_node]
    by_cases hjt : j = t
    · rw [if_pos hjt]
    · obtain ⟨c, hc, hj⟩ := hu.eq_or.resolve_left hjt
      have hpar : n'.parent ≠ some j := fun heq => by
        rw [hs.parent] at heq
        have := (hr.parent t n j hn heq).1
        have := hu.le hr
        omega
      rw [if_neg hjt, hrest j hjt hpar]
      exact hs.gone c (hall c hc) j hj
  · have hjt : j ≠ t := fun heq => hu (heq.symm ▸ .self hn)
    rw [free_node, if_neg hjt, hrest j hjt (hs.parent ▸ hj)]
    exact hs.rest j hjt fun c hc hj => hu (((hs.children c hc).under hr).trans hj)
  · have hsame : afterOrphan p n' pn = afterOrphan p n pn := by
      unfold afterOrphan
      rw [hs.name, hs.sibling]
    rw [free_node, if_neg (hout p hp).1, hparent p pn (hs.parent ▸ hp) ((hout p hp).2.trans hpn), hsame]

end Shrunk

end Destroy

section Spec

variable {h : Heap} {t : ℕ} {n : Node}

/-- What `JSON_Destroy` does below a bound on how many nodes were created since. -/
def DestroysBelow (k : ℕ) : Prop :=
  ∀ (h : Heap) (t : ℕ) (n : Node), h.next - t < k → Rooted h → h.node t = some n →
    (∀ j m, Under h t j → h.node j = some m → Held h j m) → Attached h t n →
    ∃ F h', (∀ fuel ≥ F, jsonDestroy fuel h t = some h') ∧ Removed h h' t n

variable {h' : Heap} {done : List ℕ} {n' : Node} {k : ℕ}

/-- A child of a node that has lost others is destroyed. -/
theorem Shrunk.destroy {nc : Node} {c : ℕ} (hk : DestroysBelow k) (ht : h.next - t ≤ k) (hs : Shrunk h h' t done n n')
    (hr : Rooted h) (hn : h.node t = some n) (hheld : ∀ j m, Under h t j → h.node j = some m → Held h j m)
    (hnc : h.node c = some nc) (hparent : nc.parent = some t) (hnew : c ∉ done) (ha : Attached h' c nc) :
    ∃ F h₂, (∀ fuel ≥ F, jsonDestroy fuel h' c = some h₂) ∧
      Shrunk h h₂ t (c :: done) n (afterOrphan t nc n') := by
  have hc : IsChild h t c := ⟨nc, hnc, hparent⟩
  have hlt := hc.lt hr
  have hbelow := hr.below c nc hnc
  have hnc' : h'.node c = some nc := (hs.below hr hc hnew (.self hnc)).trans hnc
  have hheld' : ∀ j m, Under h' c j → h'.node j = some m → Held h' j m := fun j m hu hm => by
    have hu' := (hs.under_iff hr hn hc hnew).mp hu
    rw [hs.below hr hc hnew hu'] at hm
    exact (hheld j m ((hc.under hr).trans hu') hm).congr (hs.sameChildren hr hn hc hnew hu')
  obtain ⟨F, h₂, hrun, hremoved⟩ := hk h' c nc (by rw [hs.next]; omega) (hs.rooted hr hn) hnc' hheld' ha
  exact ⟨F, h₂, hrun, hs.step hr hn hc hnew hnc hremoved⟩

/-- The children of an object are destroyed. -/
theorem destroyChildren_spec (hk : DestroysBelow k) (ht : h.next - t ≤ k) (hr : Rooted h)
    (hn : h.node t = some n) (hheld : ∀ j m, Under h t j → h.node j = some m → Held h j m) {cs : List ℕ}
    {l : Link} (hs : Shrunk h h' t done n n') (hlinks : n'.links = .chain l)
    (hchain : Chain h n'.child cs) (hnodup : cs.Nodup) (hcs : ∀ c ∈ cs, IsChild h t c ∧ c ∉ done) :
    ∃ F h₂ done₂ n₂, (∀ fuel ≥ F, ∀ rounds > cs.length,
        destroyChildren (jsonDestroy fuel) t rounds h' = some h₂) ∧
      Shrunk h h₂ t done₂ n n₂ ∧ ∀ c, c ∈ done ∨ c ∈ cs → c ∈ done₂ := by
  induction cs generalizing h' n' done l with
  | nil =>
    refine ⟨0, h', done, n', fun fuel _ rounds hrounds => ?_, hs, fun c hc => hc.resolve_right nofun⟩
    obtain ⟨r, rfl⟩ := Nat.exists_eq_add_of_lt hrounds
    have hchild : n'.child = none := hchain
    simp [destroyChildren, hs.self, hchild]
  | cons c cs ih =>
    obtain ⟨hchild, nc, hnc, hrest⟩ := hchain
    obtain ⟨⟨m, hm, hparent⟩, hnew⟩ := hcs c (.head _)
    rw [hnc] at hm
    cases hm
    have hc : IsChild h t c := ⟨nc, hnc, hparent⟩
    have hattached : Attached h' c nc := fun p hp => by
      rw [hparent] at hp
      cases hp
      refine ⟨(hc.lt hr).ne, n', hs.self, ?_⟩
      rw [hlinks]
      exact hchild
    obtain ⟨F₁, h₁, hrun₁, hs₁⟩ := hs.destroy hk ht hr hn hheld hnc hparent hnew hattached
    have hafter : afterOrphan t nc n' =
        { n' with child := nc.sibling, links := .chain (if nc.sibling.isSome then .child t else l) } := by
      unfold afterOrphan
      rw [hlinks]
    rw [hafter] at hs₁
    obtain ⟨F₂, h₂, done₂, n₂, hrun₂, hs₂, hdone⟩ := ih hs₁ rfl hrest (nodup_cons.mp hnodup).2 fun c' hc' =>
      ⟨(hcs c' (.tail _ hc')).1, fun hmem => by
        rcases mem_cons.mp hmem with rfl | hmem
        · exact (nodup_cons.mp hnodup).1 hc'
        · exact (hcs c' (.tail _ hc')).2 hmem⟩
    refine ⟨max F₁ F₂, h₂, done₂, n₂, fun fuel hfuel rounds hrounds => ?_, hs₂, fun c' hc' => hdone c' ?_⟩
    · obtain ⟨r, rfl⟩ := Nat.exists_eq_add_of_lt hrounds
      have hr₁ := hrun₁ fuel (le_of_max_le_left hfuel)
      have hr₂ := hrun₂ fuel (le_of_max_le_right hfuel) (cs.length + 1 + r) (by omega)
      simp only [length_cons, destroyChildren, hs.self, bind_some, hchild, hr₁]
      exact hr₂
    · rcases hc' with hc' | hc'
      · exact .inl (.tail _ hc')
      · rcases mem_cons.mp hc' with rfl | hc'
        · exact .inl (.head _)
        · exact .inr hc'

/-- The elements of an array are destroyed, for the indices that are left. -/
theorem destroySlots_spec (hk : DestroysBelow k) (ht : h.next - t ≤ k) (hr : Rooted h) (hn : h.node t = some n)
    (hheld : ∀ j m, Under h t j → h.node j = some m → Held h j m) {is : List ℕ} {arraymax : ℕ} {array : ℕ → Option ℕ}
    (hs : Shrunk h h' t done n n') (hlinks : n'.links = .table arraymax array) (hnodup : is.Nodup)
    (hmax : ∀ i ∈ is, i < arraymax)
    (harray : ∀ i ∈ is, ∀ j, array i = some j ↔ ∃ m, h.node j = some m ∧ m.parent = some t ∧ indexOf m.name = i)
    (hdone : ∀ c ∈ done, ∀ m, h.node c = some m → indexOf m.name ∉ is) :
    ∃ F h₂ done₂ n₂, (∀ fuel ≥ F, destroySlots (jsonDestroy fuel) t is h' = some h₂) ∧
      Shrunk h h₂ t done₂ n n₂ ∧ (∀ c ∈ done, c ∈ done₂) ∧
      ∀ c m, h.node c = some m → m.parent = some t → indexOf m.name ∈ is → c ∈ done₂ := by
  induction is generalizing h' n' done array with
  | nil => exact ⟨0, h', done, n', fun _ _ => rfl, hs, fun _ hc => hc, nofun⟩
  | cons i is ih =>
    obtain ⟨hi, hnodup'⟩ := nodup_cons.mp hnodup
    cases hslot : array i with
    | none =>
      obtain ⟨F, h₂, done₂, n₂, hrun, hs₂, hold, hall⟩ := ih hs hlinks hnodup' (fun i hi => hmax i (.tail _ hi))
        (fun i hi => harray i (.tail _ hi)) fun c hc m hm hmem => hdone c hc m hm (.tail _ hmem)
      refine ⟨F, h₂, done₂, n₂, fun fuel hfuel => ?_, hs₂, hold, fun c m hm hp hmem => ?_⟩
      · simp only [destroySlots, hs.self, bind_some, hlinks, hslot]
        exact hrun fuel hfuel
      · rcases mem_cons.mp hmem with heq | hmem
        · have hsome := (harray i (.head _) c).mpr ⟨m, hm, hp, heq⟩
          rw [hslot] at hsome
          cases hsome
        · exact hall c m hm hp hmem
    | some c =>
      obtain ⟨nc, hnc, hparent, hindex⟩ := (harray i (.head _) c).mp hslot
      have hc : IsChild h t c := ⟨nc, hnc, hparent⟩
      have hnew : c ∉ done := fun hmem => hdone c hmem nc hnc (hindex ▸ .head _)
      have hattached : Attached h' c nc := fun p hp => by
        rw [hparent] at hp
        cases hp
        refine ⟨(hc.lt hr).ne, n', hs.self, ?_⟩
        rw [hlinks]
        exact hindex ▸ hmax i (.head _)
      obtain ⟨F₁, h₁, hrun₁, hs₁⟩ := hs.destroy hk ht hr hn hheld hnc hparent hnew hattached
      have hafter : afterOrphan t nc n' =
          { n' with links := .table arraymax fun i => if i = indexOf nc.name then none else array i } := by
        unfold afterOrphan
        rw [hlinks]
      rw [hafter] at hs₁
      obtain ⟨F₂, h₂, done₂, n₂, hrun₂, hs₂, hold, hall⟩ := ih hs₁ rfl hnodup' (fun i hi => hmax i (.tail _ hi))
        (fun i' hi' j => by
          have hne : i' ≠ indexOf nc.name := fun heq => hi (hindex ▸ heq ▸ hi')
          rw [if_neg hne]
          exact harray i' (.tail _ hi') j)
        (fun c' hc' m hm hmem => by
          rcases mem_cons.mp hc' with rfl | hc'
          · rw [hnc] at hm
            cases hm
            exact hi (hindex ▸ hmem)
          · exact hdone c' hc' m hm (.tail _ hmem))
      refine ⟨max F₁ F₂, h₂, done₂, n₂, fun fuel hfuel => ?_, hs₂, fun c hc => hold c (.tail _ hc),
        fun c' m hm hp hmem => ?_⟩
      · have hr₁ := hrun₁ fuel (le_of_max_le_left hfuel)
        simp only [destroySlots, hs.self, bind_some, hlinks, hslot, hr₁]
        exact hrun₂ fuel (le_of_max_le_right hfuel)
      · rcases mem_cons.mp hmem with heq | hmem
        · have hsame := (harray i (.head _) c').mpr ⟨m, hm, hp, heq⟩
          rw [hslot] at hsame
          cases hsame
          exact hold c (.head _)
        · exact hall c' m hm hp hmem

/-- `JSON_Destroy` on a node that hangs where it must, with what is below it held. -/
theorem jsonDestroy_spec (k : ℕ) : DestroysBelow k := by
  induction k with
  | zero => exact fun h t n hlt => absurd hlt (Nat.not_lt_zero _)
  | succ k hk =>
    intro h t n hlt hr hn hheld ha
    have ht : h.next - t ≤ k := Nat.lt_succ_iff.mp hlt
    have hself := hheld t n (.self hn) hn
    unfold Held at hself
    cases hlinks : n.links with
    | chain l =>
      simp only [hlinks] at hself
      obtain ⟨cs, hchain, hnodup, hmem⟩ := hself
      obtain ⟨F, h₁, done, n₁, hrun, hs, hdone⟩ := destroyChildren_spec hk ht hr hn hheld (.start hn) hlinks hchain
        hnodup fun c hc => ⟨(hmem c).mp hc, nofun⟩
      obtain ⟨h₂, hfinish, hremoved⟩ := hs.finish hr hn (fun c hc => hdone c (.inr ((hmem c).mpr hc))) ha
      refine ⟨max F (cs.length + 1) + 1, h₂, fun fuel hfuel => ?_, hremoved⟩
      obtain ⟨f, rfl⟩ : ∃ f, fuel = f + 1 := ⟨fuel - 1, by omega⟩
      have hf := hrun f (by omega) f (by omega)
      simp only [jsonDestroy, hn, bind_some, hlinks, hf]
      exact hfinish
    | table arraymax array =>
      simp only [hlinks] at hself
      obtain ⟨harray, hmax⟩ := hself
      obtain ⟨F, h₁, done, n₁, hrun, hs, -, hdone⟩ := destroySlots_spec hk ht hr hn hheld (.start hn) hlinks
        nodup_range (fun i hi => mem_range.mp hi) (fun i hi => harray i (mem_range.mp hi)) nofun
      have hall : ∀ c, IsChild h t c → c ∈ done := by
        rintro c ⟨m, hm, hp⟩
        exact hdone c m hm hp (mem_range.mpr (hmax c m hm hp))
      obtain ⟨h₂, hfinish, hremoved⟩ := hs.finish hr hn hall ha
      refine ⟨F + 1, h₂, fun fuel hfuel => ?_, hremoved⟩
      obtain ⟨f, rfl⟩ : ∃ f, fuel = f + 1 := ⟨fuel - 1, by omega⟩
      have hf := hrun f (by omega)
      simp only [jsonDestroy, hn, bind_some, hlinks, hf]
      exact hfinish

end Spec

/-! ## Every call leaves the tree intact -/

/-- The invariant. -/
structure Good (h : Heap) : Prop extends Rooted h where
  intact : ∀ p n, h.node p = some n → Intact h p n

section Create

variable {h h' : Heap} {p j : ℕ} {n pn : Node} {name : List QByte} {type : JsonType}

/-- A new node has no children. -/
theorem intact_newNode (hr : Rooted h) (hnone : h.node j = none) (hold : ∀ k m, h'.node k = some m → k ≠ j →
      ∃ m', h.node k = some m' ∧ m'.parent = m.parent) (hself : ∀ m, h'.node j = some m → m.parent ≠ some j)
    (parent : Option ℕ) : Intact h' j (newNode j parent name type) := by
  have hchild (k : ℕ) (m : Node) (hm : h'.node k = some m) : m.parent ≠ some j := fun hp => by
    by_cases hk : k = j
    · subst hk
      exact hself m hm hp
    · obtain ⟨m', hm', hparent⟩ := hold k m hm hk
      obtain ⟨-, jn, hjn⟩ := hr.parent k m' j hm' (hparent.trans hp)
      rw [hnone] at hjn
      cases hjn
  unfold Intact newNode
  by_cases htype : type = .array
  · simp only [if_pos htype]
    refine ⟨fun i _ k => ⟨nofun, ?_⟩, fun k m hm hp => absurd hp (hchild k m hm)⟩
    rintro ⟨m, hm, hp, -⟩
    exact absurd hp (hchild k m hm)
  · simp only [if_neg htype]
    refine ⟨[], rfl, .nil, fun k => ⟨nofun, ?_⟩, rfl⟩
    rintro ⟨m, hm, hp⟩
    exact absurd hp (hchild k m hm)

/-- The child that is linked behind the last one is the end of the chain. -/
theorem Chain.append {v : Option ℕ} {cs : List ℕ} (hchain : Chain h v cs) (hj : h'.node j = some n)
    (hend : n.sibling = none) (hlast : ∀ c, cs.getLast? = some c → ∃ m, h'.node c = some m ∧ m.sibling = some j)
    (hrest : ∀ c ∈ cs, cs.getLast? ≠ some c → ∀ m, h.node c = some m →
      ∃ m', h'.node c = some m' ∧ m'.sibling = m.sibling) (hnodup : cs.Nodup) :
    Chain h' (if cs = [] then some j else v) (cs ++ [j]) := by
  induction cs generalizing v with
  | nil => exact ⟨rfl, n, hj, hend⟩
  | cons c cs ih =>
    obtain ⟨rfl, m, hm, hcs⟩ := hchain
    rw [if_neg (cons_ne_nil c cs), cons_append]
    rcases cs with _ | ⟨d, cs⟩
    · obtain ⟨m', hm', hsibling⟩ := hlast c rfl
      exact ⟨rfl, m', hm', hsibling, n, hj, hend⟩
    · have hne : (c :: d :: cs).getLast? ≠ some c := fun heq => by
        rw [getLast?_cons_cons] at heq
        exact (nodup_cons.mp hnodup).1 (mem_of_getLast? heq)
      obtain ⟨m', hm', hsibling⟩ := hrest c (.head _) hne m hm
      have htail := ih hcs (fun c' hc' => hlast c' (by rw [getLast?_cons_cons]; exact hc'))
        (fun c' hc' hne' => hrest c' (.tail _ hc') (by rw [getLast?_cons_cons]; exact hne'))
        (nodup_cons.mp hnodup).2
      rw [if_neg (cons_ne_nil d cs)] at htail
      exact ⟨rfl, m', hm', hsibling ▸ htail⟩

/-- What creation changes: the new node, the links of its parent, and the sibling of one of its children. -/
structure Created (h h' : Heap) (parent : Option ℕ) (name : List QByte) (type : JsonType) : Prop where
  next : h'.next = h.next + 1
  self : h'.node h.next = some (newNode h.next parent name type)
  old : ∀ k, k ≠ h.next → ∀ m, h'.node k = some m →
    ∃ m₀, h.node k = some m₀ ∧ m.name = m₀.name ∧ m.parent = m₀.parent ∧
      (m₀.parent = parent ∨ m.sibling = m₀.sibling) ∧ (parent = some k ∨ (m.child = m₀.child ∧ m.links = m₀.links))
  kept : ∀ k m₀, h.node k = some m₀ → ∃ m, h'.node k = some m

namespace Created

variable {parent : Option ℕ}

theorem rooted (hc : Created h h' parent name type) (hr : Rooted h) (hp : ∀ p, parent = some p → ∃ pn, h.node p = some pn) :
    Rooted h' := by
  refine ⟨fun k m hm => ?_, fun k m q hm hq => ?_⟩
  · rw [hc.next]
    by_cases hk : k = h.next
    · omega
    · obtain ⟨m₀, hm₀, -⟩ := hc.old k hk m hm
      have := hr.below k m₀ hm₀
      omega
  · by_cases hk : k = h.next
    · subst hk
      rw [hc.self] at hm
      cases hm
      obtain ⟨pn, hpn⟩ := hp q hq
      exact ⟨hr.below q pn hpn, hc.kept q pn hpn⟩
    · obtain ⟨m₀, hm₀, -, hparent, -⟩ := hc.old k hk m hm
      obtain ⟨hlt, pn, hpn⟩ := hr.parent k m₀ q hm₀ (hparent ▸ hq)
      exact ⟨hlt, hc.kept q pn hpn⟩

/-- The children of all others are as they were. -/
theorem sameChildren (hc : Created h h' parent name type) (hr : Rooted h) {q : ℕ} (hq : parent ≠ some q) :
    SameChildren h h' q := by
  have hplace (k : ℕ) (hk : k ≠ h.next) (m m₀ : Node) (hm : h'.node k = some m) (hm₀ : h.node k = some m₀)
      (hparent : m₀.parent = some q) : m.place = m₀.place := by
    obtain ⟨m₁, hm₁, hname, hparent', hsibling, -⟩ := hc.old k hk m hm
    rw [hm₀] at hm₁
    cases hm₁
    have hkept := hsibling.resolve_left fun heq => hq (heq ▸ hparent)
    rw [Node.place, Node.place, hname, hparent', hkept]
  intro k v hv
  constructor
  · rintro ⟨m, hm, rfl⟩
    have hk : k ≠ h.next := fun heq => by
      subst heq
      rw [hc.self] at hm
      cases hm
      exact hq hv
    obtain ⟨m₀, hm₀, -, hparent, -⟩ := hc.old k hk m hm
    exact ⟨m₀, hm₀, (hplace k hk m m₀ hm hm₀ (hparent ▸ hv)).symm⟩
  · rintro ⟨m₀, hm₀, rfl⟩
    obtain ⟨m, hm⟩ := hc.kept k m₀ hm₀
    exact ⟨m, hm, hplace k (hr.below k m₀ hm₀).ne m m₀ hm hm₀ hv⟩

/-- The tree is intact when it is at the parent. -/
theorem good (hc : Created h h' parent name type) (hg : Good h) (hp : ∀ p, parent = some p → ∃ pn, h.node p = some pn)
    (hparent : ∀ p pn', parent = some p → h'.node p = some pn' → Intact h' p pn') : Good h' := by
  have hr := hg.toRooted
  have hnone : h.node h.next = none := by
    cases hnode : h.node h.next with
    | none => rfl
    | some m => exact absurd (hr.below _ m hnode) (lt_irrefl _)
  refine ⟨hc.rooted hr hp, fun q m hm => ?_⟩
  by_cases hq : parent = some q
  · exact hparent q m hq hm
  by_cases hk : q = h.next
  · subst hk
    rw [hc.self] at hm
    cases hm
    refine intact_newNode hr hnone (fun k m hm hk => ?_) (fun m hm => ?_) parent
    · obtain ⟨m₀, hm₀, -, hpar, -⟩ := hc.old k hk m hm
      exact ⟨m₀, hm₀, hpar.symm⟩
    · rw [hc.self] at hm
      cases hm
      exact hq
  · obtain ⟨m₀, hm₀, -, -, -, hlinks⟩ := hc.old q hk m hm
    have hsame := (hg.intact q m₀ hm₀).congr (hc.sameChildren hr hq)
    obtain ⟨hchild, hlinks⟩ := hlinks.resolve_left hq
    unfold Intact at hsame ⊢
    rw [hlinks, hchild]
    exact hsame

end Created

end Create

section CreateSpec

variable {h h' : Heap} {p : ℕ} {pn : Node} {name : List QByte} {type : JsonType}

theorem Created.isChild_iff (hc : Created h h' (some p) name type) (hr : Rooted h) {k : ℕ} :
    IsChild h' p k ↔ k = h.next ∨ IsChild h p k := by
  constructor
  · rintro ⟨m, hm, hp⟩
    by_cases hk : k = h.next
    · exact .inl hk
    · obtain ⟨m₀, hm₀, -, hparent, -⟩ := hc.old k hk m hm
      exact .inr ⟨m₀, hm₀, hparent ▸ hp⟩
  · rintro (rfl | ⟨m₀, hm₀, hp⟩)
    · exact ⟨_, hc.self, rfl⟩
    · obtain ⟨m, hm⟩ := hc.kept k m₀ hm₀
      obtain ⟨m₁, hm₁, -, hparent, -⟩ := hc.old k (hr.below k m₀ hm₀).ne m hm
      rw [hm₀] at hm₁
      cases hm₁
      exact ⟨m, hm, hparent.trans hp⟩

/-- The heap is changed at the parent and, in its sibling, at one child. -/
theorem Created.of_node (hr : Rooted h) (hpn : h.node p = some pn) {child last : Option ℕ} {links : Links}
    (hlast : ∀ k, last = some k → IsChild h p k) (hnext : h'.next = h.next + 1)
    (hnode : ∀ k, h'.node k =
      if k = p then some { pn with child := child, links := links }
      else if last = some k then (h.node k).map fun m => { m with sibling := some h.next }
      else if k = h.next then some (newNode h.next (some p) name type) else h.node k) :
    Created h h' (some p) name type := by
  have hself : h'.node h.next = some (newNode h.next (some p) name type) := by
    rw [hnode, if_neg (hr.below p pn hpn).ne', if_neg fun heq => ?_, if_pos rfl]
    obtain ⟨cn, hcn, -⟩ := hlast _ heq
    exact lt_irrefl _ (hr.below _ cn hcn)
  refine ⟨hnext, hself, fun k hk m hm => ?_, fun k m₀ hm₀ => ?_⟩
  · by_cases hkp : k = p
    · subst hkp
      rw [hnode, if_pos rfl] at hm
      cases hm
      exact ⟨pn, hpn, rfl, rfl, .inr rfl, .inl rfl⟩
    by_cases hkl : last = some k
    · obtain ⟨cn, hcn, hparent⟩ := hlast k hkl
      rw [hnode, if_neg hkp, if_pos hkl, hcn] at hm
      cases hm
      exact ⟨cn, hcn, rfl, rfl, .inl hparent, .inr ⟨rfl, rfl⟩⟩
    · rw [hnode, if_neg hkp, if_neg hkl, if_neg hk] at hm
      exact ⟨m, hm, rfl, rfl, .inr rfl, .inr ⟨rfl, rfl⟩⟩
  · rw [hnode, hm₀]
    split
    · exact ⟨_, rfl⟩
    split
    · exact ⟨_, rfl⟩
    split <;> exact ⟨_, rfl⟩

/-- A child is appended to an object. -/
theorem create_chain (hg : Good h) (hpn : h.node p = some pn) {childlink : Link} (hlinks : pn.links = .chain childlink) :
    ∃ h', jsonCreateNode h (some p) name type = some h' ∧ Good h' := by
  have hr := hg.toRooted
  have hpj : p ≠ h.next := (hr.below p pn hpn).ne
  have hintact := hg.intact p pn hpn
  unfold Intact at hintact
  simp only [hlinks] at hintact
  obtain ⟨cs, hchain, hsorted, hmem, hlink⟩ := hintact
  -- the node at the end of the chain, if there is one, gets the new node as its sibling
  obtain ⟨h', hrun, hnext, hnode⟩ : ∃ h', jsonCreateNode h (some p) name type = some h' ∧ h'.next = h.next + 1 ∧
      ∀ k, h'.node k =
        if k = p then some { pn with child := if cs = [] then some h.next else pn.child, links := .chain (.sibling h.next) }
        else if cs.getLast? = some k then (h.node k).map fun m => { m with sibling := some h.next }
        else if k = h.next then some (newNode h.next (some p) name type) else h.node k := by
    unfold jsonCreateNode
    simp only [set_node, if_neg hpj, hpn, bind_some, hlinks, hlink]
    unfold lastLink
    cases hlast : cs.getLast? with
    | none =>
      have hnil : cs = [] := getLast?_eq_none_iff.mp hlast
      simp only [Heap.write, set_node, if_neg hpj, hpn, map_some, bind_some, if_true]
      refine ⟨_, rfl, rfl, fun k => ?_⟩
      simp only [set_node, hnil, if_true, reduceCtorEq, if_false]
      by_cases hk : k = p
      · rw [if_pos hk, if_pos hk]
      · rw [if_neg hk, if_neg hk, if_neg hk]
    | some c =>
      have hc : IsChild h p c := (hmem c).mp (mem_of_getLast? hlast)
      have hcp : p ≠ c := (hc.lt hr).ne
      obtain ⟨cn, hcn, -⟩ := hc
      have hcj : c ≠ h.next := (hr.below c cn hcn).ne
      have hcons : cs ≠ [] := fun hnil => by
        rw [hnil] at hlast
        cases hlast
      simp only [Heap.write, set_node, if_neg hcj, hcn, map_some, bind_some, if_neg hcp, if_neg hpj, hpn]
      refine ⟨_, rfl, rfl, fun k => ?_⟩
      simp only [set_node, if_neg hcons, Option.some.injEq]
      by_cases hk : k = p
      · rw [if_pos hk, if_pos hk]
      rw [if_neg hk, if_neg hk]
      by_cases hkc : k = c
      · rw [if_pos hkc, if_pos hkc.symm, hkc, hcn, map_some]
      · rw [if_neg hkc, if_neg fun heq : c = k => hkc heq.symm]
  have hlive (c : ℕ) (hc : c ∈ cs) : ∃ cn, h.node c = some cn ∧ cn.parent = some p ∧ c ≠ p ∧ c < h.next := by
    have hchild := (hmem c).mp hc
    obtain ⟨cn, hcn, hparent⟩ := (hmem c).mp hc
    exact ⟨cn, hcn, hparent, (hchild.lt hr).ne', hr.below c cn hcn⟩
  have hcreated : Created h h' (some p) name type :=
    .of_node hr hpn (fun k hk => (hmem k).mp (mem_of_getLast? hk)) hnext hnode
  have hlastNode (c : ℕ) (hlast : cs.getLast? = some c) :
      ∃ cn, h.node c = some cn ∧ cn.parent = some p ∧ h'.node c = some { cn with sibling := some h.next } := by
    obtain ⟨cn, hcn, hparent, hcp, -⟩ := hlive c (mem_of_getLast? hlast)
    exact ⟨cn, hcn, hparent, by rw [hnode, if_neg hcp, if_pos hlast, hcn, map_some]⟩
  refine ⟨h', hrun, hcreated.good hg (fun q hq => by cases hq; exact ⟨pn, hpn⟩) fun q qn hq hqn => ?_⟩
  cases hq
  rw [hnode, if_pos rfl] at hqn
  cases hqn
  have hnodup : cs.Nodup := hsorted.imp Nat.ne_of_lt
  refine ⟨cs ++ [h.next], ?_, ?_, fun k => ?_, ?_⟩
  · refine hchain.append hcreated.self rfl (fun c hlast => ?_) (fun c hc hlast cn hcn => ⟨cn, ?_, rfl⟩) hnodup
    · obtain ⟨cn, -, -, hcn'⟩ := hlastNode c hlast
      exact ⟨_, hcn', rfl⟩
    · obtain ⟨-, -, -, hcp, hlt⟩ := hlive c hc
      rw [hnode, if_neg hcp, if_neg hlast, if_neg hlt.ne, hcn]
  · rw [pairwise_append]
    refine ⟨hsorted, pairwise_singleton _ _, fun c hc k hk => ?_⟩
    obtain ⟨-, -, -, -, hlt⟩ := hlive c hc
    rwa [mem_singleton.mp hk]
  · rw [hcreated.isChild_iff hr, mem_append, mem_singleton, hmem, or_comm]
  · rw [lastLink, getLast?_append_of_ne_nil _ (cons_ne_nil _ _)]
    rfl

/-- An element is put into an array. -/
theorem create_table (hg : Good h) (hpn : h.node p = some pn) {arraymax : ℕ} {array : ℕ → Option ℕ}
    (hlinks : pn.links = .table arraymax array) (hzero : 0 ≤ atoi name) (hint : atoi name < 2 ^ 31)
    (hfresh : ∀ j n, h.node j = some n → n.parent = some p → indexOf n.name ≠ indexOf name) :
    ∃ h', jsonCreateNode h (some p) name type = some h' ∧ Good h' := by
  have hr := hg.toRooted
  have hpj : p ≠ h.next := (hr.below p pn hpn).ne
  have hintact := hg.intact p pn hpn
  unfold Intact at hintact
  simp only [hlinks] at hintact
  obtain ⟨harray, hmax⟩ := hintact
  have hidx : indexOf name < 2 ^ 31 := by
    unfold indexOf
    omega
  have hgrown : indexOf name < grownMax arraymax (indexOf name) ∧ arraymax ≤ grownMax arraymax (indexOf name) := by
    unfold grownMax
    split <;> omega
  have hslot : ∀ i, i ≠ indexOf name → ∀ k, (if i < arraymax then array i else none) = some k →
      ∃ m, h.node k = some m ∧ m.parent = some p ∧ indexOf m.name = i := fun i _ k hk => by
    by_cases hi : i < arraymax
    · rw [if_pos hi] at hk
      exact (harray i hi k).mp hk
    · rw [if_neg hi] at hk
      cases hk
  -- an element before it gets the new node as its sibling
  obtain ⟨h', hrun, hnext, last, hlast, child, hnode⟩ : ∃ h', jsonCreateNode h (some p) name type = some h' ∧
      h'.next = h.next + 1 ∧ ∃ last : Option ℕ, (∀ k, last = some k → IsChild h p k) ∧ ∃ child, ∀ k, h'.node k =
        if k = p then some { pn with
          child := child
          links := .table (grownMax arraymax (indexOf name)) fun i =>
            if i = indexOf name then some h.next else if i < arraymax then array i else none }
        else if last = some k then (h.node k).map fun m => { m with sibling := some h.next }
        else if k = h.next then some (newNode h.next (some p) name type) else h.node k := by
    unfold jsonCreateNode createElement
    simp only [set_node, if_neg hpj, hpn, bind_some, hlinks, if_pos hgrown.1]
    by_cases hfirst : indexOf name = 0
    · rw [if_pos hfirst]
      exact ⟨_, rfl, rfl, none, nofun, some h.next, fun k => by simp [set_node]⟩
    rw [if_neg hfirst]
    have hne : indexOf name - 1 ≠ indexOf name := by omega
    simp only [if_neg hne]
    cases hbefore : (if indexOf name - 1 < arraymax then array (indexOf name - 1) else none) with
    | none => exact ⟨_, rfl, rfl, none, nofun, pn.child, fun k => by simp [set_node]⟩
    | some c =>
      obtain ⟨cn, hcn, hparent, -⟩ := hslot _ hne c hbefore
      have hc : IsChild h p c := ⟨cn, hcn, hparent⟩
      have hcp : c ≠ p := (hc.lt hr).ne'
      have hcj : c ≠ h.next := (hr.below c cn hcn).ne
      simp only [if_neg hcp, if_neg hcj, hcn, map_some]
      refine ⟨_, rfl, rfl, some c, fun k hk => (some.inj hk) ▸ hc, pn.child, fun k => ?_⟩
      simp only [set_node, Option.some.injEq]
      by_cases hk : k = p
      · rw [if_pos hk, if_neg (hk ▸ hcp.symm), if_pos hk]
      rw [if_neg hk, if_neg hk]
      by_cases hkc : k = c
      · rw [if_pos hkc, if_pos hkc.symm, hkc, hcn, map_some]
      · rw [if_neg hkc, if_neg fun heq : c = k => hkc heq.symm]
  have hcreated : Created h h' (some p) name type := .of_node hr hpn hlast hnext hnode
  have hnew := hcreated.self
  refine ⟨h', hrun, hcreated.good hg (fun q hq => by cases hq; exact ⟨pn, hpn⟩) fun q qn hq hqn => ?_⟩
  cases hq
  rw [hnode, if_pos rfl] at hqn
  cases hqn
  -- what is known of an element in one of the heaps holds in the other
  have hback (k : ℕ) (hk : k ≠ h.next) (i : ℕ) : (∃ m, h'.node k = some m ∧ m.parent = some p ∧ indexOf m.name = i) ↔
        ∃ m, h.node k = some m ∧ m.parent = some p ∧ indexOf m.name = i := by
    constructor
    · rintro ⟨m, hm, hp, hi⟩
      obtain ⟨m₀, hm₀, hname, hparent, -⟩ := hcreated.old k hk m hm
      exact ⟨m₀, hm₀, hparent ▸ hp, hname ▸ hi⟩
    · rintro ⟨m₀, hm₀, hp, hi⟩
      obtain ⟨m, hm⟩ := hcreated.kept k m₀ hm₀
      obtain ⟨m₁, hm₁, hname, hparent, -⟩ := hcreated.old k hk m hm
      rw [hm₀] at hm₁
      cases hm₁
      exact ⟨m, hm, hparent.trans hp, (congrArg indexOf hname).trans hi⟩
  refine ⟨fun i hi k => ?_, fun k m hm hp => ?_⟩
  · show (if i = indexOf name then some h.next else if i < arraymax then array i else none) = some k ↔ _
    by_cases hieq : i = indexOf name
    · rw [if_pos hieq]
      constructor
      · intro heq
        obtain rfl := some.inj heq
        exact ⟨_, hnew, rfl, hieq.symm⟩
      · rintro ⟨m, hm, hp, him⟩
        by_cases hk : k = h.next
        · rw [hk]
        · obtain ⟨m₀, hm₀, hp₀, hi₀⟩ := (hback k hk i).mp ⟨m, hm, hp, him⟩
          exact absurd (hi₀.trans hieq) (hfresh k m₀ hm₀ hp₀)
    · rw [if_neg hieq]
      constructor
      · intro heq
        obtain ⟨m₀, hm₀, hp₀, hi₀⟩ := hslot i hieq k heq
        exact (hback k (hr.below k m₀ hm₀).ne i).mpr ⟨m₀, hm₀, hp₀, hi₀⟩
      · rintro ⟨m, hm, hp, him⟩
        have hk : k ≠ h.next := fun hk => by
          rw [hk, hnew] at hm
          cases hm
          exact hieq him.symm
        obtain ⟨m₀, hm₀, hp₀, hi₀⟩ := (hback k hk i).mp ⟨m, hm, hp, him⟩
        have hlt : i < arraymax := hi₀ ▸ hmax k m₀ hm₀ hp₀
        rw [if_pos hlt]
        exact (harray i hlt k).mpr ⟨m₀, hm₀, hp₀, hi₀⟩
  · by_cases hk : k = h.next
    · rw [hk, hnew] at hm
      cases hm
      exact hgrown.1
    · obtain ⟨m₀, hm₀, hname, hparent, -⟩ := hcreated.old k hk m hm
      rw [hname]
      exact (hmax k m₀ hm₀ (hparent ▸ hp)).trans_le hgrown.2

/-- A root is created. -/
theorem create_root (hg : Good h) : ∃ h', jsonCreateNode h none name type = some h' ∧ Good h' := by
  have hr := hg.toRooted
  have hcreated : Created h { h.set h.next (newNode h.next none name type) with next := h.next + 1 } none name type := by
    refine ⟨rfl, if_pos rfl, fun k hk m hm => ?_, fun k m₀ hm₀ => ?_⟩
    · simp only [set_node, if_neg hk] at hm
      exact ⟨m, hm, rfl, rfl, .inr rfl, .inr ⟨rfl, rfl⟩⟩
    · exact ⟨m₀, by simp only [set_node, if_neg (hr.below k m₀ hm₀).ne, hm₀]⟩
  exact ⟨_, rfl, hcreated.good hg nofun nofun⟩

end CreateSpec

section Destruction

variable {h h' : Heap} {t : ℕ} {n : Node}

theorem place_afterOrphan (p : ℕ) (n pn : Node) : (afterOrphan p n pn).place = pn.place := by
  unfold afterOrphan
  split <;> rfl

/-- What is left is what was there and not below the node. -/
theorem Removed.of_node (hm : Removed h h' t n) (hp : ∀ p, n.parent = some p → ∃ pn, h.node p = some pn) {k : ℕ}
    {m : Node} (hk : h'.node k = some m) : ¬Under h t k ∧ ∃ m₀, h.node k = some m₀ ∧ m.place = m₀.place := by
  have hout : ¬Under h t k := fun hu => by
    rw [hm.gone k hu] at hk
    cases hk
  refine ⟨hout, ?_⟩
  by_cases hparent : n.parent = some k
  · obtain ⟨pn, hpn⟩ := hp k hparent
    rw [hm.parent k pn hparent hpn] at hk
    cases hk
    exact ⟨pn, hpn, place_afterOrphan k n pn⟩
  · exact ⟨m, hm.rest k hout hparent ▸ hk, rfl⟩

theorem Removed.kept (hm : Removed h h' t n) {k : ℕ} {m₀ : Node} (hout : ¬Under h t k) (hk : h.node k = some m₀) :
    ∃ m, h'.node k = some m ∧ m.place = m₀.place := by
  by_cases hparent : n.parent = some k
  · exact ⟨_, hm.parent k m₀ hparent hk, place_afterOrphan k n m₀⟩
  · exact ⟨m₀, (hm.rest k hout hparent).trans hk, rfl⟩

/-- A root or an element is destroyed. -/
theorem destroy_good (hg : Good h) (hn : h.node t = some n) (hwhere : ∀ p pn, n.parent = some p →
      h.node p = some pn → ∃ arraymax array, pn.links = .table arraymax array) :
    ∃ h', (∃ F, ∀ fuel ≥ F, jsonDestroy fuel h t = some h') ∧ Good h' := by
  have hr := hg.toRooted
  have hattached : Attached h t n := fun p hp => by
    obtain ⟨hlt, pn, hpn⟩ := hr.parent t n p hn hp
    obtain ⟨arraymax, array, hlinks⟩ := hwhere p pn hp hpn
    have hintact := hg.intact p pn hpn
    unfold Intact at hintact
    simp only [hlinks] at hintact
    refine ⟨hlt.ne, pn, hpn, ?_⟩
    rw [hlinks]
    exact hintact.2 t n hn hp
  obtain ⟨F, h', hrun, hm⟩ := jsonDestroy_spec (h.next - t + 1) h t n (Nat.lt_succ_self _) hr hn
    (fun j m _ hj => (hg.intact j m hj).held) hattached
  have hparentLive : ∀ p, n.parent = some p → ∃ pn, h.node p = some pn := fun p hp => (hr.parent t n p hn hp).2
  have hself : ¬∃ m, h'.node t = some m := by
    rintro ⟨m, hk⟩
    exact (hm.of_node hparentLive hk).1 (.self hn)
  refine ⟨h', ⟨F, hrun⟩, ⟨fun k m hk => ?_, fun k m q hk hq => ?_⟩, fun q m hq => ?_⟩
  · obtain ⟨-, m₀, hm₀, -⟩ := hm.of_node hparentLive hk
    exact hm.next ▸ hr.below k m₀ hm₀
  · obtain ⟨hout, m₀, hm₀, hplace⟩ := hm.of_node hparentLive hk
    have hq₀ : m₀.parent = some q := (congrArg (·.2.1) hplace).symm.trans hq
    obtain ⟨hlt, qn, hqn⟩ := hr.parent k m₀ q hm₀ hq₀
    obtain ⟨qn', hqn', -⟩ := hm.kept (fun hu => hout (.step hm₀ hq₀ hu)) hqn
    exact ⟨hlt, qn', hqn'⟩
  · obtain ⟨hout, m₀, hm₀, -⟩ := hm.of_node hparentLive hq
    by_cases hparent : n.parent = some q
    · -- an array has lost the element in the slot of its index
      obtain ⟨arraymax, array, hlinks⟩ := hwhere q m₀ hparent hm₀
      rw [hm.parent q m₀ hparent hm₀] at hq
      cases hq
      have hintact := hg.intact q m₀ hm₀
      unfold Intact at hintact
      simp only [hlinks] at hintact
      obtain ⟨harray, hmax⟩ := hintact
      have hslot : array (indexOf n.name) = some t := (harray _ (hmax t n hn hparent) t).mpr ⟨n, hn, hparent, rfl⟩
      have hafter : (afterOrphan q n m₀).links =
          .table arraymax fun i => if i = indexOf n.name then none else array i := by
        unfold afterOrphan
        rw [hlinks]
      unfold Intact
      rw [hafter]
      refine ⟨fun i hi k => ?_, fun k m hk hp => ?_⟩
      · show (if i = indexOf n.name then none else array i) = some k ↔ _
        by_cases hieq : i = indexOf n.name
        · rw [if_pos hieq]
          refine ⟨nofun, ?_⟩
          rintro ⟨m, hk, hp, him⟩
          obtain ⟨hout', m₁, hm₁, hplace⟩ := hm.of_node hparentLive hk
          have hsame := (harray i hi k).mpr ⟨m₁, hm₁, (congrArg (·.2.1) hplace).symm.trans hp,
            (congrArg (fun v => indexOf v.1) hplace).symm.trans him⟩
          rw [hieq, hslot] at hsame
          cases hsame
          exact absurd (.self hn) hout'
        · rw [if_neg hieq, harray i hi k]
          constructor
          · rintro ⟨m₁, hm₁, hp, him⟩
            have hkt : k ≠ t := fun heq => by
              rw [heq, hn] at hm₁
              cases hm₁
              exact hieq him.symm
            have hout' : ¬Under h t k := fun hu => by
              cases hu with
              | self _ => exact hkt rfl
              | step hm₂ hp₂ hu =>
                rw [hm₁] at hm₂
                cases hm₂
                rw [hp] at hp₂
                cases hp₂
                exact hout hu
            obtain ⟨m, hk, hplace⟩ := hm.kept hout' hm₁
            exact ⟨m, hk, (congrArg (·.2.1) hplace).trans hp, (congrArg (fun v => indexOf v.1) hplace).trans him⟩
          · rintro ⟨m, hk, hp, him⟩
            obtain ⟨-, m₁, hm₁, hplace⟩ := hm.of_node hparentLive hk
            exact ⟨m₁, hm₁, (congrArg (·.2.1) hplace).symm.trans hp,
              (congrArg (fun v => indexOf v.1) hplace).symm.trans him⟩
      · obtain ⟨-, m₁, hm₁, hplace⟩ := hm.of_node hparentLive hk
        have hlt := hmax k m₁ hm₁ ((congrArg (·.2.1) hplace).symm.trans hp)
        exact (congrArg (fun v => indexOf v.1) hplace : indexOf m.name = indexOf m₁.name) ▸ hlt
    · rw [hm.rest q hout hparent, hm₀] at hq
      cases hq
      refine (hg.intact q m hm₀).congr fun k v hv => ⟨?_, ?_⟩
      · rintro ⟨m₁, hk, rfl⟩
        obtain ⟨-, m₂, hm₂, hplace⟩ := hm.of_node hparentLive hk
        exact ⟨m₂, hm₂, hplace.symm⟩
      · rintro ⟨m₁, hk, rfl⟩
        have hout' : ¬Under h t k := fun hu => by
          cases hu with
          | self _ =>
            rw [hn] at hk
            cases hk
            exact hparent hv
          | step hm₂ hp₂ hu =>
            rw [hk] at hm₂
            cases hm₂
            have hq₂ : some q = some _ := hv.symm.trans hp₂
            cases hq₂
            exact hout hu
        exact hm.kept hout' hk

/-- A call that meets the condition can be made and keeps the invariant. -/
theorem good_step (hg : Good h) {op : Op} (hop : Meets h op) : ∃ h', Exec h op h' ∧ Good h' := by
  cases op with
  | create parent name type =>
    cases parent with
    | none => exact create_root hg
    | some p =>
      obtain ⟨pn, hpn, htable⟩ := hop
      cases hlinks : pn.links with
      | chain l => exact create_chain hg hpn hlinks
      | table arraymax array =>
        obtain ⟨hzero, hint, hfresh⟩ := htable arraymax array hlinks
        exact create_table hg hpn hlinks hzero hint hfresh
  | destroy t =>
    obtain ⟨n, hn, hwhere⟩ := hop
    exact destroy_good hg hn hwhere

/-- A call does one thing. -/
theorem Exec.unique {h₁ h₂ : Heap} {op : Op} (he₁ : Exec h op h₁) (he₂ : Exec h op h₂) : h₁ = h₂ := by
  cases op with
  | create parent name type => exact some.inj (he₁.symm.trans he₂)
  | destroy t =>
    obtain ⟨F₁, hrun₁⟩ := he₁
    obtain ⟨F₂, hrun₂⟩ := he₂
    exact some.inj ((hrun₁ _ (le_max_left F₁ F₂)).symm.trans (hrun₂ _ (le_max_right F₁ F₂)))

theorem good_of_run (hrun : Run Meets h) : Good h := by
  induction hrun with
  | start => exact ⟨⟨nofun, nofun⟩, nofun⟩
  | step _ hop hexec ih =>
    obtain ⟨h₂, hexec₂, hgood⟩ := good_step ih hop
    exact hexec.unique hexec₂ ▸ hgood

end Destruction

/-- **As long as the children of objects are destroyed with their objects only, and the elements of an array have
indices of their own, the children of every live node are where they must be, and no call reaches a freed
node.** -/
theorem jsonTree_intact {h : Heap} (hrun : Run Meets h) :
    (∀ p n, h.node p = some n → Intact h p n) ∧ ∀ op, Meets h op → ∃ h', Exec h op h' := by
  have hgood := good_of_run hrun
  refine ⟨hgood.intact, fun op hop => ?_⟩
  obtain ⟨h', hexec, -⟩ := good_step hgood hop
  exact ⟨h', hexec⟩

/-! ## A child taken out of an object -/

section Counterexample

/-- The heap after a creation that can be made. -/
def created (h : Heap) (parent : Option ℕ) (name : List QByte) (type : JsonType) : Heap :=
  (jsonCreateNode h parent name type).getD h

/-- An object with two children. -/
def twoChildren : Heap :=
  created (created (created ⟨fun _ => none, 0⟩ none [] .object) (some 0) [0x61] .null) (some 0) [0x62] .null

theorem run_twoChildren {C : Heap → Op → Prop} (hC : ∀ h op, Meets h op → C h op) : Run C twoChildren := by
  have hroot : Run C (created ⟨fun _ => none, 0⟩ none [] .object) :=
    @Run.step C _ _ (.create none [] .object) .start (hC _ _ trivial) rfl
  have hfirst : Run C (created (created ⟨fun _ => none, 0⟩ none [] .object) (some 0) [0x61] .null) :=
    @Run.step C _ _ (.create (some 0) [0x61] .null) hroot (hC _ _ ⟨_, rfl, nofun⟩) rfl
  exact @Run.step C _ _ (.create (some 0) [0x62] .null) hfirst (hC _ _ ⟨_, rfl, nofun⟩) rfl

theorem jsonTree_intact_twoChildren : Run Meets twoChildren ∧ (∀ p n, twoChildren.node p = some n →
    Intact twoChildren p n) ∧ ∀ op, Meets twoChildren op → ∃ h', Exec twoChildren op h' :=
  ⟨run_twoChildren fun _ _ hop => hop, jsonTree_intact (run_twoChildren fun _ _ hop => hop)⟩

theorem Meets.live {h : Heap} {op : Op} (hop : Meets h op) : Live h op := by
  cases op with
  | create parent name type =>
    cases parent with
    | none => trivial
    | some p => exact ⟨hop.choose, hop.choose_spec.1⟩
  | destroy t => exact ⟨hop.choose, hop.choose_spec.1⟩

/-- When the first of two children is destroyed, the next one is linked in its place, and the second child is
lost. -/
theorem jsonTree_loses : ¬∀ h, Run Live h → ∀ p n, h.node p = some n → Intact h p n := by
  intro hall
  obtain ⟨h', hrun, hnode, hsecond⟩ : ∃ h', (∀ fuel ≥ 3, jsonDestroy fuel twoChildren 1 = some h') ∧
      ((h'.node 0).map Node.links = some (.chain (.child 0))) ∧ (h'.node 2).map Node.parent = some (some 0) := by
    refine ⟨(jsonDestroy 3 twoChildren 1).getD twoChildren, fun fuel hfuel => ?_, rfl, rfl⟩
    obtain ⟨f, rfl⟩ := Nat.exists_eq_add_of_le' hfuel
    rfl
  obtain ⟨n, hn, hlinks⟩ := Option.map_eq_some_iff.mp hnode
  have hsecond : IsChild h' 0 2 := Option.map_eq_some_iff.mp hsecond
  have hlive : Live twoChildren (.destroy 1) := ⟨_, rfl⟩
  have hintact := hall h' (.step (run_twoChildren fun _ _ hop => hop.live) hlive ⟨3, hrun⟩) 0 n hn
  unfold Intact at hintact
  simp only [hlinks] at hintact
  obtain ⟨cs, -, -, hmem, hlink⟩ := hintact
  cases hlast : cs.getLast? with
  | none =>
    rw [List.getLast?_eq_none_iff] at hlast
    have := (hmem 2).mpr hsecond
    rw [hlast] at this
    cases this
  | some c =>
    rw [lastLink, hlast] at hlink
    cases hlink

end Counterexample

end JsonTree

end FteQuake
