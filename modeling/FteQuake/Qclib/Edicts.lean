import FteQuake.Common.Sizebuf
import FteQuake.Lib.BinaryFloat
import Mathlib.Logic.Relation

/-!
# The table of edicts

`ED_AllocIndex`, `ED_Alloc` and `ED_Free` of `pr_edict.c`, from the table that `PR_InitEnts` of
`initlib.c` sets up. Entities are taken from the bottom of the table, up to `num_edicts`, and objects
from its top. Allocations of memory succeed, and `entspawn`, which fills in what the engine keeps with an
edict, is left out. A result is `none` where the source ends in `Sys_Error`.

A run is a sequence of calls (`Op`) with the game time moving on between them. Beside the table it
records when each slot was freed (`World.freedAt`), of which the table keeps a rounding. What a call may
do to the table is said once (`edAlloc_cases`, `fillHoles_spec`); from it comes what every run keeps
(`slots_kept`), as long as no entity is put on the slot of an object and no hole is passed over.
-/

namespace FteQuake

open List Option

namespace Edicts

open BinaryFloat

/-! ## Edicts -/

/-- `enum ereftype_e`. -/
inductive EReftype
  | entity
  | free
  | object
  deriving DecidableEq

/-- `edictrun_t`. -/
structure EdictRun where
  ereftype : EReftype
  freetime : ℚ
  entnum : ℕ
  fieldsize : BitVec 32
  fields : List QByte
  deriving DecidableEq

/-- What `prinst` and the engine keep of the edicts. -/
structure PrInst where
  maxedicts : ℕ
  edicttable : ℕ → Option EdictRun
  svNumEdicts : ℕ
  fieldsSize : BitVec 32
  gametime : ℚ

/-- An edict that is in use. -/
def EdictRun.Live (e : EdictRun) : Prop := e.ereftype ≠ .free

instance (e : EdictRun) : Decidable e.Live := inferInstanceAs (Decidable (_ ≠ _))

/-- `memset(e, 0, externs->edictsize)`: of the type zero, which is the one of entities. -/
def EdictRun.cleared : EdictRun :=
  { ereftype := .entity, freetime := 0, entnum := 0, fieldsize := 0, fields := [] }

/-- `PR_InitEnts`: the table has the world in it. -/
def prInitEnts (maxEnts : ℕ) (fieldsSize : BitVec 32) (gametime : ℚ) : PrInst where
  maxedicts := maxEnts
  edicttable i := if i = 0 then some { EdictRun.cleared with
    fieldsize := fieldsSize, fields := List.replicate fieldsSize.toNat 0 } else none
  svNumEdicts := 1
  fieldsSize := fieldsSize
  gametime := gametime

namespace PrInst

/-- `QC_EDICT_NUM`. -/
def edictNum (p : PrInst) (n : ℕ) : Option (Option EdictRun) :=
  if n ≥ p.maxedicts then none else some (p.edicttable n)

def setEdict (p : PrInst) (n : ℕ) (e : Option EdictRun) : PrInst :=
  { p with edicttable := Function.update p.edicttable n e }

/-- What `ED_AllocIndex` makes of the edict of a slot. -/
def spawn (p : PrInst) (num : ℕ) (object : Bool) (extrasize : BitVec 64) (e : EdictRun) : EdictRun :=
  let fieldsSize := (if object then 0 else p.fieldsSize) + extrasize.setWidth 32
  { e with
    ereftype := if object then .object else .entity
    entnum := num
    fieldsize := fieldsSize
    fields := List.replicate fieldsSize.toNat 0 }

/-- `if (num >= sv_num_edicts) sv_num_edicts=num+1;`, of entities. -/
def raise (p : PrInst) (num : ℕ) : PrInst :=
  if num ≥ p.svNumEdicts then { p with svNumEdicts := num + 1 } else p

/-- `ED_AllocIndex` from where the holes are filled. -/
def allocAt (p : PrInst) (num : ℕ) (object : Bool) (extrasize : BitVec 64) : PrInst :=
  let p := if object then p else p.raise num
  p.setEdict num (some (p.spawn num object extrasize ((p.edicttable num).getD .cleared)))

/-- `e->ereftype=ER_FREE;` of the edict that was put into a hole. -/
def freeHole (p : PrInst) (num : ℕ) : PrInst :=
  p.setEdict num ((p.edicttable num).map fun e => { e with ereftype := .free })

/-- The body of the loop that fills holes. `ED_AllocIndex` calls itself, for the slot `num_edicts`, for
which there are no holes to fill (`edAllocIndex_svNumEdicts`). -/
def fillHole (p : PrInst) (extrasize : BitVec 64) : PrInst :=
  let p := match p.edicttable p.svNumEdicts with
    | none => (p.allocAt p.svNumEdicts false extrasize).freeHole p.svNumEdicts
    | some _ => p
  { p with svNumEdicts := p.svNumEdicts + 1 }

/-- `while(sv_num_edicts < num)`. -/
def fillHoles (num : ℕ) (extrasize : BitVec 64) : ℕ → PrInst → PrInst
  | 0, p => p
  | n + 1, p => if p.svNumEdicts < num then fillHoles num extrasize n (p.fillHole extrasize) else p

/-- `ED_AllocIndex`. -/
def edAllocIndex (p : PrInst) (num : ℕ) (object : Bool) (extrasize : BitVec 64) : Option PrInst :=
  if num ≥ p.maxedicts then none
  else
    let p := if object then p else fillHoles num extrasize (num - p.svNumEdicts) p
    some (p.allocAt num object extrasize)

/-- The test of a slot for reuse: there is no edict, or one that has been free for a while. -/
def Reusable (p : PrInst) (e : Option EdictRun) : Prop :=
  ∀ x ∈ e, x.ereftype = .free ∧ (x.freetime < 2 ∨ roundTo 53 (-1074) (p.gametime - x.freetime) > 1 / 2)

instance (p : PrInst) (e : Option EdictRun) : Decidable (p.Reusable e) :=
  inferInstanceAs (Decidable (∀ x ∈ e, x.ereftype = .free ∧
    (x.freetime < 2 ∨ roundTo 53 (-1074) (p.gametime - x.freetime) > 1 / 2)))

/-- The first of some slots with an edict of a kind. -/
def search (p : PrInst) (f : Option EdictRun → Bool) : List ℕ → Option (Option ℕ)
  | [] => some none
  | i :: is => do if f (← p.edictNum i) then return some i else p.search f is

/-- The slot that `ED_Alloc` chooses for an object. -/
def slotOfObject (p : PrInst) : Option ℕ := do
  p.search (fun e => decide (p.Reusable e)) ((List.range' 1 (p.maxedicts - 1)).reverse) >>= id

/-- The slot that `ED_Alloc` chooses for an entity. -/
def slotOfEntity (p : PrInst) : Option ℕ := do
  match ← p.search (fun e => decide (p.Reusable e)) (List.range p.svNumEdicts) with
  | some i => return i
  | none =>
    if p.svNumEdicts ≥ p.maxedicts - 1 then
      -- once more, with edicts that were freed lately; after that there is no slot
      p.search (fun e => decide (∀ x ∈ e, x.ereftype = .free)) (List.range p.svNumEdicts) >>= id
    else return p.svNumEdicts

/-- The slot that `ED_Alloc` chooses. -/
def chosen (p : PrInst) (object : Bool) : Option ℕ := if object then p.slotOfObject else p.slotOfEntity

/-- `ED_Alloc`: the slot, and the table after the call. -/
def edAlloc (p : PrInst) (object : Bool) (extrasize : BitVec 64) : Option (ℕ × PrInst) := do
  let i ← p.chosen object
  return (i, ← p.edAllocIndex i object extrasize)

/-- `ED_Free` of the edict of a slot. `entcanfree` is what the engine says of it. -/
def edFree (p : PrInst) (num : ℕ) (instant entcanfree : Bool) : Option PrInst := do
  let e ← p.edicttable num
  if e.ereftype = .free then return p
  else if !entcanfree then return p
  else return p.setEdict num (some { e with
    ereftype := .free, freetime := if instant then 0 else roundTo 24 (-149) p.gametime })

end PrInst

/-! ## Runs -/

/-- The table, and when the slots were freed that may not be reused at once. -/
structure World where
  pool : PrInst
  freedAt : ℕ → Option ℚ

/-- The calls, and the game time that moves on. -/
inductive Op
  | alloc (object : Bool) (extrasize : BitVec 64)
  | allocIndex (num : ℕ) (object : Bool) (extrasize : BitVec 64)
  | free (num : ℕ) (instant entcanfree : Bool)
  | advance (gametime : ℚ)

namespace World

def start (maxEnts : ℕ) (fieldsSize : BitVec 32) (gametime : ℚ) : World :=
  ⟨prInitEnts maxEnts fieldsSize gametime, fun _ => none⟩

/-- An edict of the slot is in use. -/
def LiveAt (w : World) (i : ℕ) : Prop := ∃ e ∈ w.pool.edicttable i, e.Live

/-- The slot was freed less than half a second ago, after the first two seconds. -/
def Recent (w : World) (i : ℕ) : Prop := ∃ t ∈ w.freedAt i, 2 ≤ t ∧ w.pool.gametime - t < 1 / 2

/-- There is a slot, and nothing stands against using it. -/
def Available (w : World) (i : ℕ) : Prop :=
  i < w.pool.maxedicts ∧ w.pool.Reusable (w.pool.edicttable i)

/-- One call: the slot of an allocation, and the world after it. -/
def exec (w : World) : Op → Option (Option ℕ × World)
  | .alloc object extrasize => do
    let (i, p) ← w.pool.edAlloc object extrasize
    return (some i, ⟨p, Function.update w.freedAt i none⟩)
  | .allocIndex num object extrasize => do
    let p ← w.pool.edAllocIndex num object extrasize
    return (some num, ⟨p, Function.update w.freedAt num none⟩)
  | .free num instant entcanfree => do
    let e ← w.pool.edicttable num
    let p ← w.pool.edFree num instant entcanfree
    return (none, ⟨p, if e.Live ∧ entcanfree then
      Function.update w.freedAt num (if instant then none else some w.pool.gametime) else w.freedAt⟩)
  | .advance gametime => some (none, { w with pool := { w.pool with gametime := gametime } })

/-- The calls there are: an index that is allocated is not in use, and time does not go back. -/
def Meant (w : World) : Op → Prop
  | .alloc _ _ => True
  | .allocIndex num _ _ => ¬w.LiveAt num
  | .free _ _ _ => True
  | .advance gametime => w.pool.gametime ≤ gametime

/-- What a call does right: the slot it takes was not in use, no edict in use is touched by an
allocation, and a slot that was freed lately is taken only when no other is available. -/
structure Right (w : World) (op : Op) (slot : Option ℕ) (w' : World) : Prop where
  unused : ∀ i ∈ slot, ¬w.LiveAt i
  kept : slot ≠ none → ∀ i, w.LiveAt i → w'.pool.edicttable i = w.pool.edicttable i
  patient : ∀ object extrasize, op = .alloc object extrasize →
    ∀ i ∈ slot, w.Recent i → ∀ j, j ≠ i → ¬w.Available j

/-- What holds of the table between the calls. -/
structure Bounds (w : World) : Prop where
  num_le : w.pool.svNumEdicts ≤ w.pool.maxedicts
  allocated : ∀ i < w.pool.svNumEdicts, w.pool.edicttable i ≠ none

/-- Any calls from `w` to `w'`, each of a kind `P`. -/
def Reaches (P : World → Op → Prop) : World → World → Prop :=
  Relation.ReflTransGen fun w w' => ∃ op slot, w.Meant op ∧ P w op ∧ w.exec op = some (slot, w')

/-- No slot from below is to be reused, so that an entity gets another one. -/
def Crowded (w : World) : Prop := ∀ i < w.pool.svNumEdicts, ¬w.Available i

/-- The slot past the entities, which one more of them is put on, has no edict in use, nor one that was
freed lately while others are available. -/
def RoomAbove (w : World) : Prop :=
  ¬w.LiveAt w.pool.svNumEdicts ∧ (w.Available w.pool.svNumEdicts ∨ ∀ j, ¬w.Available j)

/-- The condition on a call. -/
def Careful (w : World) : Op → Prop
  | .alloc object _ => object = false → w.Crowded →
      if w.pool.svNumEdicts ≥ w.pool.maxedicts - 1 then ∀ j, ¬w.Available j else w.RoomAbove
  | .allocIndex num object _ => object = false → ∀ i, w.pool.svNumEdicts ≤ i → i + 1 < num →
      w.pool.edicttable i = none → w.pool.edicttable (i + 1) ≠ none
  | .free num instant entcanfree => w.LiveAt num → entcanfree = true → instant = false →
      2 ≤ w.pool.gametime → w.pool.gametime ≤ roundTo 24 (-149) w.pool.gametime
  | .advance _ => True

end World

/-! ## What `ED_AllocIndex` does -/

namespace PrInst

variable {p p' : PrInst} {num i n : ℕ} {object : Bool} {extrasize : BitVec 64}

@[simp] theorem raise_edicttable : (p.raise num).edicttable = p.edicttable := by
  unfold raise
  split <;> rfl

@[simp] theorem raise_maxedicts : (p.raise num).maxedicts = p.maxedicts := by
  unfold raise
  split <;> rfl

@[simp] theorem raise_gametime : (p.raise num).gametime = p.gametime := by
  unfold raise
  split <;> rfl

theorem raise_svNumEdicts : (p.raise num).svNumEdicts = max (num + 1) p.svNumEdicts := by
  unfold raise
  split
  · simp only
    omega
  · omega

theorem allocAt_edicttable_of_ne (h : i ≠ num) :
    (p.allocAt num object extrasize).edicttable i = p.edicttable i := by
  unfold allocAt setEdict
  cases object <;> simp [h]

theorem allocAt_edicttable_self : (p.allocAt num object extrasize).edicttable num ≠ none := by
  simp [allocAt, setEdict]

@[simp] theorem allocAt_maxedicts : (p.allocAt num object extrasize).maxedicts = p.maxedicts := by
  unfold allocAt setEdict
  cases object <;> simp

@[simp] theorem allocAt_gametime : (p.allocAt num object extrasize).gametime = p.gametime := by
  unfold allocAt setEdict
  cases object <;> simp

theorem allocAt_svNumEdicts : (p.allocAt num object extrasize).svNumEdicts =
    if object then p.svNumEdicts else max (num + 1) p.svNumEdicts := by
  unfold allocAt setEdict
  cases object
  · simp [raise_svNumEdicts]
  · simp

theorem fillHole_edicttable_of_ne (h : i ≠ p.svNumEdicts) :
    (p.fillHole extrasize).edicttable i = p.edicttable i := by
  unfold fillHole
  cases hp : p.edicttable p.svNumEdicts with
  | none => simp [freeHole, setEdict, h, allocAt_edicttable_of_ne h]
  | some e => rfl

theorem fillHole_edicttable_self : (p.fillHole extrasize).edicttable p.svNumEdicts ≠ none := by
  unfold fillHole
  cases hp : p.edicttable p.svNumEdicts with
  | none => simp [freeHole, setEdict, allocAt_edicttable_self]
  | some e => simp [hp]

theorem fillHole_edicttable_of_some {e : EdictRun} (h : p.edicttable i = some e) :
    (p.fillHole extrasize).edicttable i = some e := by
  by_cases hi : i = p.svNumEdicts
  · subst hi
    simp [fillHole, h]
  · rw [fillHole_edicttable_of_ne hi, h]

@[simp] theorem fillHole_maxedicts : (p.fillHole extrasize).maxedicts = p.maxedicts := by
  unfold fillHole
  cases hp : p.edicttable p.svNumEdicts with
  | none => simp [freeHole, setEdict]
  | some e => rfl

@[simp] theorem fillHole_gametime : (p.fillHole extrasize).gametime = p.gametime := by
  unfold fillHole
  cases hp : p.edicttable p.svNumEdicts with
  | none => simp [freeHole, setEdict]
  | some e => rfl

/-- Past a hole the loop goes on with the second slot after it. -/
theorem fillHole_svNumEdicts : (p.fillHole extrasize).svNumEdicts =
    if p.edicttable p.svNumEdicts = none then p.svNumEdicts + 2 else p.svNumEdicts + 1 := by
  unfold fillHole
  cases hp : p.edicttable p.svNumEdicts with
  | none => simp [freeHole, setEdict, allocAt_svNumEdicts]
  | some e => simp

/-- What the loop does, whether or not it passes over holes. -/
structure Filled (num : ℕ) (p p' : PrInst) : Prop where
  maxedicts : p'.maxedicts = p.maxedicts
  gametime : p'.gametime = p.gametime
  num_le : p'.svNumEdicts ≤ max p.svNumEdicts (num + 1)
  kept : ∀ i, ∀ e ∈ p.edicttable i, p'.edicttable i = some e

theorem fillHoles_filled (p : PrInst) (num : ℕ) (extrasize : BitVec 64) (n : ℕ) :
    Filled num p (fillHoles num extrasize n p) := by
  induction n generalizing p with
  | zero => exact ⟨rfl, rfl, le_max_left _ _, fun i e h => h⟩
  | succ n ih =>
    rw [fillHoles]
    split
    · have h := ih (p.fillHole extrasize)
      refine ⟨by simpa using h.maxedicts, by simpa using h.gametime, ?_, fun i e he =>
        h.kept i e (fillHole_edicttable_of_some he)⟩
      have hle := h.num_le
      rw [fillHole_svNumEdicts] at hle
      split at hle <;> omega
    · exact ⟨rfl, rfl, le_max_left _ _, fun i e h => h⟩

/-- No two slots without an edict are next to each other from `num_edicts` to `num`. -/
def NoGap (p : PrInst) (num : ℕ) : Prop :=
  ∀ i, p.svNumEdicts ≤ i → i + 1 < num → p.edicttable i = none → p.edicttable (i + 1) ≠ none

theorem NoGap.fillHole (h : p.NoGap num) : (p.fillHole extrasize).NoGap num := by
  intro i hi hnum
  have hsv : p.svNumEdicts < (p.fillHole extrasize).svNumEdicts := by
    rw [fillHole_svNumEdicts]
    split <;> omega
  rw [fillHole_edicttable_of_ne (by omega), fillHole_edicttable_of_ne (by omega)]
  exact h i (by omega) hnum

/-- A loop that finds no two holes next to each other fills them all. -/
theorem fillHoles_allocated (hgap : p.NoGap num) (hn : num - p.svNumEdicts ≤ n)
    (h : ∀ i < p.svNumEdicts, i < num → p.edicttable i ≠ none) :
    ∀ i < num, (fillHoles num extrasize n p).edicttable i ≠ none := by
  induction n generalizing p with
  | zero => exact fun i hi => h i (by omega) hi
  | succ n ih =>
    rw [fillHoles]
    split
    · rename_i hlt
      refine ih hgap.fillHole ?_ fun i hi hnum => ?_
      · rw [fillHole_svNumEdicts]
        split <;> omega
      · by_cases hself : i = p.svNumEdicts
        · rw [hself]
          exact fillHole_edicttable_self
        · rw [fillHole_edicttable_of_ne hself]
          by_cases hbelow : i < p.svNumEdicts
          · exact h i hbelow hnum
          · -- the slot that is passed over
            rw [fillHole_svNumEdicts] at hi
            split at hi
            · obtain rfl : i = p.svNumEdicts + 1 := by omega
              exact hgap p.svNumEdicts le_rfl hnum ‹_›
            · omega
    · exact fun i hi => h i (by omega) hi

/-- What the allocation of a slot does to the table. -/
structure Placed (num : ℕ) (p p' : PrInst) : Prop where
  num_lt : num < p.maxedicts
  maxedicts : p'.maxedicts = p.maxedicts
  gametime : p'.gametime = p.gametime
  num_le : p.svNumEdicts ≤ p.maxedicts → p'.svNumEdicts ≤ p.maxedicts
  kept : ∀ i ≠ num, ∀ e ∈ p.edicttable i, p'.edicttable i = some e

theorem edAllocIndex_placed (h : p.edAllocIndex num object extrasize = some p') : Placed num p p' := by
  rw [edAllocIndex, ite_none_left_eq_some] at h
  obtain ⟨hnum, h⟩ := h
  cases h
  cases object with
  | true =>
    refine ⟨by omega, allocAt_maxedicts, allocAt_gametime, ?_, fun i hi e he => ?_⟩
    · rw [allocAt_svNumEdicts]
      exact id
    · rw [allocAt_edicttable_of_ne hi]
      exact he
  | false =>
    have hf := fillHoles_filled p num extrasize (num - p.svNumEdicts)
    refine ⟨by omega, allocAt_maxedicts.trans hf.maxedicts, allocAt_gametime.trans hf.gametime, ?_,
      fun i hi e he => ?_⟩
    · have hle := hf.num_le
      simp only [allocAt_svNumEdicts, Bool.false_eq_true, if_false]
      omega
    · rw [allocAt_edicttable_of_ne hi]
      exact hf.kept i e he

theorem edAllocIndex_allocated (h : p.edAllocIndex num object extrasize = some p')
    (hgap : object = false → p.NoGap num) (hp : ∀ i < p.svNumEdicts, p.edicttable i ≠ none) :
    ∀ i < p'.svNumEdicts, p'.edicttable i ≠ none := by
  rw [edAllocIndex, ite_none_left_eq_some] at h
  obtain ⟨-, h⟩ := h
  cases h
  intro i hi
  by_cases hself : i = num
  · rw [hself]
    exact allocAt_edicttable_self
  rw [allocAt_edicttable_of_ne hself]
  cases object with
  | true =>
    rw [allocAt_svNumEdicts, if_pos rfl] at hi
    exact hp i hi
  | false =>
    have hf := fillHoles_filled p num extrasize (num - p.svNumEdicts)
    rcases lt_or_ge i num with hlt | hge
    · exact fillHoles_allocated (hgap rfl) le_rfl (fun j hj _ => hp j hj) i hlt
    · -- nothing is added past `num`
      have hle := hf.num_le
      simp only [allocAt_svNumEdicts, Bool.false_eq_true, if_false] at hi
      obtain ⟨e, he⟩ := ne_none_iff_exists'.1 (hp i (by omega))
      exact ne_of_eq_of_ne (hf.kept i e he) (some_ne_none e)

/-! ## The slot that is chosen -/

theorem mem_of_search {f : Option EdictRun → Bool} {is : List ℕ} (h : p.search f is = some (some i)) :
    i ∈ is ∧ i < p.maxedicts ∧ f (p.edicttable i) = true := by
  induction is with
  | nil => cases h
  | cons k ks ih =>
    simp only [search, edictNum, bind_eq_bind, bind_eq_some_iff, ite_none_left_eq_some] at h
    obtain ⟨e, ⟨hk, he⟩, h⟩ := h
    cases he
    by_cases hf : f (p.edicttable k)
    · rw [if_pos hf] at h
      cases h
      exact ⟨mem_cons_self, by omega, hf⟩
    · rw [if_neg hf] at h
      obtain ⟨hi, hlt, hfi⟩ := ih h
      exact ⟨mem_cons_of_mem k hi, hlt, hfi⟩

theorem not_of_search {f : Option EdictRun → Bool} {is : List ℕ} (h : p.search f is = some none) :
    ∀ i ∈ is, f (p.edicttable i) = false := by
  induction is with
  | nil => exact fun i hi => absurd hi not_mem_nil
  | cons k ks ih =>
    simp only [search, edictNum, bind_eq_bind, bind_eq_some_iff, ite_none_left_eq_some] at h
    obtain ⟨e, ⟨-, he⟩, h⟩ := h
    cases he
    by_cases hf : f (p.edicttable k)
    · rw [if_pos hf] at h
      cases h
    · rw [if_neg hf] at h
      intro i hi
      rcases mem_cons.1 hi with rfl | hi
      · exact Bool.eq_false_iff.2 hf
      · exact ih h i hi

theorem slotOfObject_reusable (h : p.slotOfObject = some i) : p.Reusable (p.edicttable i) := by
  unfold slotOfObject at h
  obtain ⟨o, ho, rfl⟩ := bind_eq_some_iff.1 h
  exact of_decide_eq_true (mem_of_search ho).2.2

/-- The slot of an entity: one to be reused, or, where there is none of these from below, the next one,
and at the end of the table one that is free. -/
theorem slotOfEntity_cases (h : p.slotOfEntity = some i) : i ≤ p.svNumEdicts ∧
    (p.Reusable (p.edicttable i) ∨ (∀ j < p.svNumEdicts, ¬p.Reusable (p.edicttable j)) ∧
      if p.svNumEdicts ≥ p.maxedicts - 1 then ∀ x ∈ p.edicttable i, x.ereftype = .free
      else i = p.svNumEdicts) := by
  unfold slotOfEntity at h
  obtain ⟨o, ho, h⟩ := bind_eq_some_iff.1 h
  cases o with
  | some k =>
    cases h
    obtain ⟨hmem, -, hf⟩ := mem_of_search ho
    exact ⟨(mem_range.1 hmem).le, .inl (of_decide_eq_true hf)⟩
  | none =>
    have hnone : ∀ j < p.svNumEdicts, ¬p.Reusable (p.edicttable j) := fun j hj =>
      of_decide_eq_false (not_of_search ho j (mem_range.2 hj))
    by_cases hend : p.svNumEdicts ≥ p.maxedicts - 1
    · simp only [if_pos hend] at h ⊢
      obtain ⟨o, ho, rfl⟩ := bind_eq_some_iff.1 h
      obtain ⟨hmem, -, hf⟩ := mem_of_search ho
      exact ⟨(mem_range.1 hmem).le, .inr ⟨hnone, of_decide_eq_true hf⟩⟩
    · simp only [if_neg hend] at h ⊢
      obtain rfl : p.svNumEdicts = i := some.inj h
      exact ⟨le_rfl, .inr ⟨hnone, rfl⟩⟩

/-- `ED_Alloc` chooses a slot and allocates it. -/
theorem edAlloc_cases (h : p.edAlloc object extrasize = some (i, p')) :
    p.chosen object = some i ∧ p.edAllocIndex i object extrasize = some p' := by
  unfold edAlloc at h
  obtain ⟨k, hk, h⟩ := bind_eq_some_iff.1 h
  obtain ⟨q, hq, h⟩ := bind_eq_some_iff.1 h
  cases h
  exact ⟨hk, hq⟩

end PrInst

/-! ## What every run keeps -/

namespace World

open PrInst

variable {w w' : World} {op : Op} {slot : Option ℕ} {i : ℕ}

/-- The invariant: the bounds, and that a slot that was freed has kept the time, rounded. -/
structure Inv (w : World) : Prop extends Bounds w where
  freed : ∀ i, ∀ t ∈ w.freedAt i, ∃ e ∈ w.pool.edicttable i, ¬e.Live ∧ (2 ≤ t → t ≤ e.freetime)

theorem start_inv {maxEnts : ℕ} (h : 0 < maxEnts) (fieldsSize : BitVec 32) (gametime : ℚ) :
    (start maxEnts fieldsSize gametime).Inv where
  num_le := h
  allocated i hi := by
    obtain rfl : i = 0 := Nat.lt_one_iff.1 hi
    exact some_ne_none _
  freed i t ht := by cases ht

theorem not_live_of_reusable (h : w.pool.Reusable (w.pool.edicttable i)) : ¬w.LiveAt i := by
  rintro ⟨e, he, hlive⟩
  exact hlive (h e he).1

/-- What may be reused was not freed lately. -/
theorem Inv.not_recent (hw : w.Inv) (h : w.pool.Reusable (w.pool.edicttable i)) : ¬w.Recent i := by
  rintro ⟨t, ht, h2, hlate⟩
  obtain ⟨e, he, -, hround⟩ := hw.freed i t ht
  have hle := hround h2
  rcases (h e he).2 with hearly | hold
  · linarith
  · -- the difference is rounded as well
    have hhalf : 1 / 2 < w.pool.gametime - e.freetime := by
      by_contra hc
      exact absurd (roundTo_le_half (p := 52) (by norm_num) (not_lt.1 hc)) (not_le.2 hold)
    linarith

/-- An allocation keeps the invariant. -/
theorem Inv.place {num : ℕ} {p : PrInst} (hw : w.Inv) (hp : Placed num w.pool p)
    (hall : ∀ i < p.svNumEdicts, p.edicttable i ≠ none) :
    Inv ⟨p, Function.update w.freedAt num none⟩ where
  num_le := hp.maxedicts ▸ hp.num_le hw.num_le
  allocated := hall
  freed i t ht := by
    by_cases hi : i = num
    · subst hi
      simp at ht
    · simp only [Function.update_of_ne hi] at ht
      obtain ⟨e, he, h⟩ := hw.freed i t ht
      exact ⟨e, hp.kept i hi e he, h⟩

theorem kept_of_placed {num : ℕ} {p : PrInst} (hp : Placed num w.pool p) (hfree : ¬w.LiveAt num)
    (hi : w.LiveAt i) : p.edicttable i = w.pool.edicttable i := by
  obtain ⟨e, he, hlive⟩ := hi
  have hne : i ≠ num := by
    rintro rfl
    exact hfree ⟨e, he, hlive⟩
  rw [hp.kept i hne e he, he]

/-- The slot of a careful allocation was not in use, and if it was freed lately no other was
available. -/
theorem Inv.chosen (hw : w.Inv) {object : Bool} {extrasize : BitVec 64}
    (hc : w.Careful (.alloc object extrasize)) (h : w.pool.chosen object = some i) :
    ¬w.LiveAt i ∧ (w.Recent i → ∀ j, ¬w.Available j) := by
  have reusable : w.pool.Reusable (w.pool.edicttable i) → ¬w.LiveAt i ∧ (w.Recent i → ∀ j, ¬w.Available j) :=
    fun hr => ⟨not_live_of_reusable hr, fun hrec => absurd hrec (hw.not_recent hr)⟩
  cases object with
  | true => exact reusable (slotOfObject_reusable h)
  | false =>
    obtain ⟨-, hr | ⟨hnone, hi⟩⟩ := slotOfEntity_cases h
    · exact reusable hr
    have hroom := hc rfl fun j hj ha => hnone j hj ha.2
    split at hi
    · rename_i hend
      rw [if_pos hend] at hroom
      refine ⟨?_, fun _ => hroom⟩
      rintro ⟨e, he, hlive⟩
      exact hlive (hi e he)
    · rename_i hend
      rw [if_neg hend] at hroom
      subst hi
      obtain ⟨hlive, ha | ha⟩ := hroom
      · exact reusable ha.2
      · exact ⟨hlive, fun _ => ha⟩

/-- Freeing an edict keeps the invariant, if the time it keeps is not rounded down. -/
theorem Inv.free (hw : w.Inv) {num : ℕ} {instant entcanfree : Bool} {e : EdictRun} {p : PrInst}
    (he : w.pool.edicttable num = some e) (hp : w.pool.edFree num instant entcanfree = some p)
    (hc : w.Careful (.free num instant entcanfree)) :
    Inv ⟨p, if e.Live ∧ entcanfree then
      Function.update w.freedAt num (if instant then none else some w.pool.gametime)
      else w.freedAt⟩ := by
  unfold edFree at hp
  simp only [he, bind_eq_bind, bind_some] at hp
  by_cases hfree : e.ereftype = .free
  · rw [if_pos hfree] at hp
    cases hp
    rwa [if_neg fun hl => hl.1 hfree]
  rw [if_neg hfree] at hp
  cases entcanfree with
  | false =>
    cases hp
    rwa [if_neg fun hl => Bool.false_ne_true hl.2]
  | true =>
    cases hp
    have hlive : e.Live ∧ true = true := ⟨hfree, rfl⟩
    rw [if_pos hlive]
    refine ⟨⟨hw.num_le, fun i hi => ?_⟩, fun i t ht => ?_⟩
    · by_cases hin : i = num
      · simp [setEdict, hin]
      · simpa [setEdict, hin] using hw.allocated i hi
    · by_cases hin : i = num
      · subst hin
        cases instant with
        | true => simp at ht
        | false =>
          obtain rfl : w.pool.gametime = t := by simpa using ht
          refine ⟨{ e with ereftype := .free, freetime := roundTo 24 (-149) w.pool.gametime },
            by simp [setEdict], fun hl => hl rfl, fun h2 => ?_⟩
          exact hc ⟨e, he, hfree⟩ rfl rfl h2
      · simp only [Function.update_of_ne hin] at ht
        simpa [setEdict, hin] using hw.freed i t ht

/-- **One call.** It does right and keeps the invariant. -/
theorem Inv.step (hw : w.Inv) (hm : w.Meant op) (hc : w.Careful op)
    (h : w.exec op = some (slot, w')) : w.Right op slot w' ∧ w'.Inv := by
  cases op with
  | alloc object extrasize =>
    obtain ⟨⟨i, p⟩, hr, h⟩ := bind_eq_some_iff.1 h
    cases h
    obtain ⟨hslot, hp⟩ := edAlloc_cases hr
    obtain ⟨hfree, hpatient⟩ := hw.chosen hc hslot
    have hplaced := edAllocIndex_placed hp
    refine ⟨⟨?_, fun _ j hj => kept_of_placed hplaced hfree hj, ?_⟩,
      hw.place hplaced (edAllocIndex_allocated hp ?_ hw.allocated)⟩
    · intro j hj
      cases hj
      exact hfree
    · intro _ _ _ j hj hrec k _
      cases hj
      exact hpatient hrec k
    · -- an entity is put on no slot past the next one, so there are no holes
      rintro rfl k hk hlt
      have := (slotOfEntity_cases hslot).1
      omega
  | allocIndex num object extrasize =>
    obtain ⟨p, hp, h⟩ := bind_eq_some_iff.1 h
    cases h
    have hplaced := edAllocIndex_placed hp
    refine ⟨⟨?_, fun _ j hj => kept_of_placed hplaced hm hj, ?_⟩,
      hw.place hplaced (edAllocIndex_allocated hp hc hw.allocated)⟩
    · intro j hj
      cases hj
      exact hm
    · intro _ _ ho
      cases ho
  | free num instant entcanfree =>
    obtain ⟨e, he, h⟩ := bind_eq_some_iff.1 h
    obtain ⟨p, hp, h⟩ := bind_eq_some_iff.1 h
    cases h
    exact ⟨⟨fun i hi => (by cases hi), fun hn => absurd rfl hn, fun _ _ ho => (by cases ho)⟩,
      hw.free he hp hc⟩
  | advance gametime =>
    cases h
    exact ⟨⟨fun i hi => (by cases hi), fun hn => absurd rfl hn, fun _ _ ho => (by cases ho)⟩,
      ⟨hw.num_le, hw.allocated⟩, hw.freed⟩

theorem Reaches.inv (hw : w.Inv) (h : Reaches Careful w w') : w'.Inv := by
  induction h with
  | refl => exact hw
  | tail _ hstep ih =>
    obtain ⟨op, slot, hm, hc, h⟩ := hstep
    exact (ih.step hm hc h).2

/-- **Slots are not stolen.** In a run of careful calls the table stays in its bounds, all edicts below
`num_edicts` are there, and every careful call does right. -/
theorem slots_kept {maxEnts : ℕ} {fieldsSize : BitVec 32} {gametime : ℚ} (h : 0 < maxEnts)
    (hrun : Reaches Careful (start maxEnts fieldsSize gametime) w) :
    w.Bounds ∧ ∀ op slot w', w.Meant op → w.Careful op → w.exec op = some (slot, w') →
      w.Right op slot w' ∧ w'.Bounds := by
  have hw : w.Inv := Reaches.inv (start_inv h fieldsSize gametime) hrun
  refine ⟨hw.toBounds, fun op slot w' hm hc hx => ?_⟩
  obtain ⟨hright, hinv⟩ := hw.step hm hc hx
  exact ⟨hright, hinv.toBounds⟩

/-- An entity and an object are careful allocations in a new table. -/
theorem start_reaches : ∃ w, Reaches Careful (start 4 0 0) w ∧ w.LiveAt 1 ∧ w.LiveAt 3 := by
  refine ⟨_, .tail (.tail .refl ⟨.alloc false 0, some 1, trivial, fun _ _ => ?_, rfl⟩)
    ⟨.alloc true 0, some 3, trivial, nofun, rfl⟩, ⟨_, rfl, by decide⟩, ⟨_, rfl, by decide⟩⟩
  refine ⟨fun h => ?_, .inl ⟨by decide, fun e he => ?_⟩⟩
  · obtain ⟨e, he, -⟩ := h
    cases he
  · cases he

theorem slots_kept_start : ∃ w : World, w.LiveAt 1 ∧ w.LiveAt 3 ∧ w.Bounds ∧
    ∀ op slot w', w.Meant op → w.Careful op → w.exec op = some (slot, w') →
      w.Right op slot w' ∧ w'.Bounds := by
  obtain ⟨w, hrun, h1, h3⟩ := start_reaches
  exact ⟨w, h1, h3, slots_kept (by decide) hrun⟩

/-- The second object is below the slots that entities do not get, and the entity is put on it. -/
theorem entity_on_object : ∃ w₁ w₂ w₃, (start 3 0 0).exec (.alloc true 0) = some (some 2, w₁) ∧
    w₁.exec (.alloc true 0) = some (some 1, w₂) ∧ w₂.exec (.alloc false 0) = some (some 1, w₃) ∧
    w₂.LiveAt 1 :=
  ⟨_, _, _, rfl, rfl, rfl, _, rfl, by decide⟩

/-- The slot after a hole stays without an edict. -/
theorem hole_left : ∃ w, (start 4 0 0).exec (.allocIndex 3 false 0) = some (some 3, w) ∧
    w.pool.svNumEdicts = 4 ∧ w.pool.edicttable 2 = none :=
  ⟨_, rfl, rfl, rfl⟩

/-- A run that puts an entity on an object, and one that leaves a hole. -/
theorem slots_not_kept :
    ¬(∀ (maxEnts : ℕ) (fieldsSize : BitVec 32) (gametime : ℚ), 0 < maxEnts →
      ∀ w, Reaches (fun _ _ => True) (start maxEnts fieldsSize gametime) w →
        ∀ op slot w', w.Meant op → w.exec op = some (slot, w') → w.Right op slot w') ∧
    ¬(∀ (maxEnts : ℕ) (fieldsSize : BitVec 32) (gametime : ℚ), 0 < maxEnts →
      ∀ w, Reaches (fun _ _ => True) (start maxEnts fieldsSize gametime) w → w.Bounds) := by
  constructor
  · intro h
    obtain ⟨w₁, w₂, w₃, h₁, h₂, h₃, hlive⟩ := entity_on_object
    have hrun : Reaches (fun _ _ => True) (start 3 0 0) w₂ :=
      .tail (.tail .refl ⟨.alloc true 0, _, trivial, trivial, h₁⟩)
        ⟨.alloc true 0, _, trivial, trivial, h₂⟩
    exact (h 3 0 0 (by decide) w₂ hrun (.alloc false 0) _ w₃ trivial h₃).unused 1 rfl hlive
  · intro h
    obtain ⟨w, h₁, hnum, hnone⟩ := hole_left
    have hmeant : (start 4 0 0).Meant (.allocIndex 3 false 0) := by
      rintro ⟨e, he, -⟩
      cases he
    have hrun : Reaches (fun _ _ => True) (start 4 0 0) w := .single ⟨_, _, hmeant, trivial, h₁⟩
    exact (h 4 0 0 (by decide) w hrun).allocated 2 (by omega) hnone

end World

end Edicts

end FteQuake
