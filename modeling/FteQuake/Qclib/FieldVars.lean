import Mathlib.Data.BitVec
import FteQuake.Common.Sizebuf

/-!
# Fields of entities

`QC_RegisterFieldVar` of `pr_multi.c` gives each field a place in the entities. The engine asks for a place of its own,
a progs for one by the offsets that its own fields have: a field whose progs offset an earlier field of the progs holds
goes over that field (`holder`), any other goes behind all fields. A vector brings its components along, as fields with
its name and a suffix.

Fields keep their place (`run_places`), and `fields_size` covers all of them (`run_covered`). What one call does is
`Registers`. The offset that it returns for a new vector is left out there when `fieldadjust` is not 0: it is adjusted
twice.
-/

namespace FteQuake

open List

namespace FieldVars

/-! ## The table of fields -/

/-- `etype_t`. -/
inductive Etype
  | void
  | string
  | float
  | vector
  | entity
  | field
  | function
  | pointer
  | integer
  | uint
  | int64
  | uint64
  | double
  | variant
  | struct
  | union
  | accessor
  | enum
  | typedef
  | boolean
  | bitfld
  deriving DecidableEq

/-- `type_size`. -/
def Etype.size : Etype → ℕ
  | vector | variant => 3
  | int64 | uint64 | double => 2
  | struct | union | accessor | enum | typedef | bitfld => 0
  | _ => 1

/-- `fdef_t`. The progs offset is `-1` for a field that the progs being loaded has not named. -/
structure Fdef where
  name : List QByte
  type : Etype
  ofs : ℕ
  progsofs : BitVec 32
  deriving DecidableEq

/-- The fields of `prinst`. `fieldsSize` counts bytes. -/
structure Fields where
  field : List Fdef
  fieldsSize : ℕ
  fieldadjust : ℕ
  maxFieldsSize : ℕ

/-- Before the first call. -/
def start (maxFieldsSize : ℕ) : Fields := ⟨[], 0, 0, maxFieldsSize⟩

/-- The first field of a name and a type. -/
def Fields.lookup (s : Fields) (name : List QByte) (type : Etype) : Option Fdef :=
  s.field.find? fun f => f.name = name ∧ f.type = type

/-- The progs offset of a field that is known, unless it has one. -/
def setProgsofs (name : List QByte) (type : Etype) (progsofs : BitVec 32) : List Fdef → List Fdef
  | [] => []
  | f :: l =>
    if f.name = name ∧ f.type = type then (if f.progsofs = -1 then { f with progsofs := progsofs } else f) :: l
    else f :: setProgsofs name type progsofs l

/-- Where a field has a progs offset: its own, or one of the next two of a vector. -/
def Fdef.holds (f : Fdef) (progsofs : BitVec 32) : Option ℕ :=
  if f.progsofs = -1 then none
  else if f.progsofs = progsofs then some f.ofs
  else if f.type = .vector ∧ f.progsofs + 1 = progsofs then some (f.ofs + 1)
  else if f.type = .vector ∧ f.progsofs + 2 = progsofs then some (f.ofs + 2)
  else none

/-- The place of a progs offset in the first field that has it. -/
def holder (l : List Fdef) (progsofs : BitVec 32) : Option ℕ := l.findSome? fun f => f.holds progsofs

/-- The place of a new field. -/
def Fields.slot (s : Fields) (engineofs progsofs : ℤ) : ℕ :=
  if 0 ≤ engineofs then (engineofs / 4).toNat
  else if 0 ≤ progsofs then (holder s.field (.ofInt 32 progsofs)).getD (s.fieldsSize / 4)
  else s.fieldsSize / 4

/-- `QC_RegisterFieldVar` without the components of a vector: whether the field is new, and its place. An offset of
the engine's that is not the field's is an error. -/
def Fields.registerOne (s : Fields) (type : Etype) (name : List QByte) (engineofs progsofs : ℤ) :
    Option (Bool × ℕ × Fields) :=
  match s.lookup name type with
  | some f =>
    if s.fieldadjust = 0 ∧ 0 ≤ engineofs ∧ engineofs / 4 ≠ f.ofs then none
    else some (false, f.ofs, { s with field := setProgsofs name type (.ofInt 32 progsofs) s.field })
  | none =>
    if 0 ≤ engineofs ∧ engineofs % 4 ≠ 0 then none
    else
      let ofs := s.slot engineofs progsofs
      let size := max s.fieldsSize ((ofs + type.size) * 4)
      if s.maxFieldsSize ≠ 0 ∧ s.maxFieldsSize < size then none
      else some (true, ofs, { s with field := s.field ++ [⟨name, type, ofs, .ofInt 32 progsofs⟩], fieldsSize := size })

/-- The name of component `k` of a vector, `_x`, `_y` or `_z`. -/
def component (name : List QByte) (k : ℕ) : List QByte := name ++ [0x5f, BitVec.ofNat 8 (0x78 + k)]

/-- An offset that is given, moved on. -/
def advance (o d : ℤ) : ℤ := if o = -1 then -1 else o + d

/-- `QC_RegisterFieldVar`. -/
def Fields.registerFieldVar (s : Fields) (type : Etype) (name : List QByte) (engineofs progsofs : ℤ) :
    Option (ℤ × Fields) := do
  let (new, ofs, s₁) ← s.registerOne type name engineofs progsofs
  if new ∧ type = .vector then
    let (_, ofs, s₂) ← s₁.registerOne .float (component name 0) engineofs progsofs
    let (_, _, s₃) ← s₂.registerOne .float (component name 1) (advance engineofs 4) (advance progsofs 1)
    let (_, _, s₄) ← s₃.registerOne .float (component name 2) (advance engineofs 8) (advance progsofs 2)
    some (ofs - s.fieldadjust - s.fieldadjust, s₄)
  else some (ofs - s.fieldadjust, s₁)

/-- What is done to the table. -/
inductive Op
  | register (type : Etype) (name : List QByte) (engineofs progsofs : ℤ)
  /-- `QC_RegisterFieldVar` without a name. -/
  | adjust (engineofs : ℤ)
  /-- `QC_FlushProgsOffsets`. -/
  | flush

def Fields.exec (s : Fields) : Op → Option Fields
  | .register type name engineofs progsofs => (s.registerFieldVar type name engineofs progsofs).map Prod.snd
  | .adjust engineofs =>
    some (if engineofs ≠ 2 ∧ engineofs ≠ 0 then { s with fieldadjust := s.fieldsSize / 4 } else s)
  | .flush => some { s with field := s.field.map fun f => { f with progsofs := -1 } }

def Fields.run (s : Fields) (ops : List Op) : Option Fields := ops.foldlM Fields.exec s

/-! ## Places -/

/-- What is the same of a field from its first call on. -/
def Fdef.place (f : Fdef) : List QByte × Etype × ℕ := (f.name, f.type, f.ofs)

def Fields.places (s : Fields) : List (List QByte × Etype × ℕ) := s.field.map Fdef.place

/-- The place of the first field of a name and a type. -/
def Fields.placeOf (s : Fields) (name : List QByte) (type : Etype) : Option ℕ := (s.lookup name type).map Fdef.ofs

theorem places_setProgsofs (name : List QByte) (type : Etype) (progsofs : BitVec 32) (l : List Fdef) :
    (setProgsofs name type progsofs l).map Fdef.place = l.map Fdef.place := by
  induction l with
  | nil => rfl
  | cons f l ih =>
    rw [setProgsofs]
    split
    · split <;> rfl
    · rw [map_cons, map_cons, ih]

theorem placeOf_eq (s : Fields) (name : List QByte) (type : Etype) :
    s.placeOf name type = (s.places.find? fun p => p.1 = name ∧ p.2.1 = type).map fun p => p.2.2 := by
  rw [Fields.placeOf, Fields.lookup, Fields.places, find?_map, Option.map_map]
  rfl

theorem placeOf_eq_none {s : Fields} {name : List QByte} {type : Etype} :
    s.placeOf name type = none ↔ s.lookup name type = none := Option.map_eq_none_iff

/-- Fields behind others are found if none of the others has the name and the type. -/
theorem placeOf_append {s s' : Fields} {l : List (List QByte × Etype × ℕ)} (h : s'.places = s.places ++ l)
    (name : List QByte) (type : Etype) :
    s'.placeOf name type =
      (s.placeOf name type).or ((l.find? fun p => p.1 = name ∧ p.2.1 = type).map fun p => p.2.2) := by
  rw [placeOf_eq, placeOf_eq, h, find?_append, Option.map_or]

/-- `fields_size` covers every field. -/
def Covered (s : Fields) : Prop := ∀ p ∈ s.places, (p.2.2 + p.2.1.size) * 4 ≤ s.fieldsSize

section RegisterOne

variable {s s' : Fields} {type : Etype} {name name' : List QByte} {engineofs progsofs : ℤ} {new : Bool} {ofs : ℕ}
  {f : Fdef}

theorem registerOne_known (hf : s.lookup name type = some f)
    (h : s.registerOne type name engineofs progsofs = some (new, ofs, s')) :
    new = false ∧ ofs = f.ofs ∧ s' = { s with field := setProgsofs name type (.ofInt 32 progsofs) s.field } := by
  rw [Fields.registerOne, hf] at h
  dsimp only at h
  split at h
  · cases h
  · cases h
    exact ⟨rfl, rfl, rfl⟩

theorem registerOne_new (hf : s.lookup name type = none)
    (h : s.registerOne type name engineofs progsofs = some (new, ofs, s')) :
    new = true ∧ ofs = s.slot engineofs progsofs ∧
      s' = { s with
        field := s.field ++ [⟨name, type, ofs, .ofInt 32 progsofs⟩]
        fieldsSize := max s.fieldsSize ((ofs + type.size) * 4) } := by
  rw [Fields.registerOne, hf] at h
  dsimp only at h
  split at h
  · cases h
  · split at h
    · cases h
    · cases h
      exact ⟨rfl, rfl, rfl⟩

/-- One call leaves the places alone, or adds one. -/
theorem places_registerOne (h : s.registerOne type name engineofs progsofs = some (new, ofs, s')) :
    s'.places = s.places ++ if s.lookup name type = none then [(name, type, s.slot engineofs progsofs)] else [] := by
  cases hf : s.lookup name type with
  | none =>
    obtain ⟨-, rfl, rfl⟩ := registerOne_new hf h
    rw [if_pos rfl, Fields.places, map_append]
    rfl
  | some f =>
    obtain ⟨-, -, rfl⟩ := registerOne_known hf h
    rw [if_neg nofun, append_nil]
    exact places_setProgsofs _ _ _ _

theorem prefix_registerOne (h : s.registerOne type name engineofs progsofs = some (new, ofs, s')) :
    s.places <+: s'.places := ⟨_, (places_registerOne h).symm⟩

theorem covered_registerOne (hcovered : Covered s)
    (h : s.registerOne type name engineofs progsofs = some (new, ofs, s')) : Covered s' := by
  have hplaces := places_registerOne h
  cases hf : s.lookup name type with
  | none =>
    obtain ⟨-, rfl, rfl⟩ := registerOne_new hf h
    intro p hp
    rw [hplaces, hf, if_pos rfl, mem_append, mem_singleton] at hp
    obtain hp | rfl := hp
    · exact (hcovered p hp).trans (le_max_left _ _)
    · exact le_max_right _ _
  | some f =>
    obtain ⟨-, -, rfl⟩ := registerOne_known hf h
    rw [hf, if_neg nofun, append_nil] at hplaces
    intro p hp
    exact hcovered p (hplaces ▸ hp)

/-- A call for a field that is new. -/
theorem placeOf_registerOne (hf : s.lookup name type = none)
    (h : s.registerOne type name engineofs progsofs = some (new, ofs, s')) :
    s'.placeOf name type = some (s.slot engineofs progsofs) := by
  rw [placeOf_append (places_registerOne h), placeOf_eq_none.mpr hf, if_pos hf]
  simp

/-- A call for another field. -/
theorem placeOf_registerOne_of_ne {type' : Etype} (hne : name ≠ name' ∨ type ≠ type')
    (h : s.registerOne type name engineofs progsofs = some (new, ofs, s')) :
    s'.placeOf name' type' = s.placeOf name' type' := by
  rw [placeOf_append (places_registerOne h)]
  split
  · rw [find?_cons_of_neg (by simpa using not_and_or.mpr hne), find?_nil, Option.map_none, Option.or_none]
  · rw [find?_nil, Option.map_none, Option.or_none]

theorem placeOf_of_kept (h : s.places <+: s'.places) (hplace : s.placeOf name type = some ofs) :
    s'.placeOf name type = some ofs := by
  obtain ⟨l, hl⟩ := h
  rw [placeOf_append hl.symm, hplace, Option.some_or]

end RegisterOne

/-! ## Holders -/

section Holder

variable {s s' : Fields} {name : List QByte} {engineofs progsofs : ℤ} {new : Bool} {ofs : ℕ} {f : Fdef}

/-- A field that is not a vector holds its own progs offset only. -/
theorem holds_of_ne {q : BitVec 32} (hvector : f.type ≠ .vector) (hne : f.progsofs ≠ q) : f.holds q = none := by
  simp [Fdef.holds, hvector, hne]

theorem holder_append_singleton (l : List Fdef) (f : Fdef) (q : BitVec 32) :
    holder (l ++ [f]) q = (holder l q).or (f.holds q) := by
  rw [holder, findSome?_append, holder, findSome?_singleton]

/-- A component that is registered holds nothing but its own progs offset. -/
theorem holder_registerOne {q : BitVec 32} (hne : .ofInt 32 progsofs ≠ q)
    (h : s.registerOne .float name engineofs progsofs = some (new, ofs, s')) : holder s'.field q = holder s.field q := by
  cases hf : s.lookup name .float with
  | none =>
    obtain ⟨-, -, rfl⟩ := registerOne_new hf h
    rw [holder_append_singleton, holds_of_ne (nofun : Etype.float ≠ .vector) hne, Option.or_none]
  | some f =>
    obtain ⟨-, -, rfl⟩ := registerOne_known hf h
    clear hf h
    dsimp only
    induction s.field with
    | nil => rfl
    | cons f l ih =>
      rw [setProgsofs]
      split
      next hsame =>
        split
        next hunset =>
          have hbefore : f.holds q = none := if_pos hunset
          have hafter : Fdef.holds { f with progsofs := .ofInt 32 progsofs } q = none :=
            holds_of_ne (by rw [hsame.2]; decide) hne
          rw [holder, findSome?_cons, hafter, holder, findSome?_cons, hbefore]
        next => rfl
      next =>
        rw [holder, findSome?_cons, holder, findSome?_cons]
        cases f.holds q with
        | none => exact ih
        | some o => rfl

/-- A vector holds its progs offset and the next two. -/
theorem holds_vector (hvector : f.type = .vector) (hset : f.progsofs ≠ -1) {k : ℕ} (hk : k < 3) :
    f.holds (f.progsofs + BitVec.ofNat 32 k) = some (f.ofs + k) := by
  rw [Fdef.holds, if_neg hset]
  obtain _ | _ | _ | k := k
  · simp
  · rw [if_neg (by bv_omega), if_pos ⟨hvector, rfl⟩]
  · rw [if_neg (by bv_omega), if_neg (fun h => by have := h.2; bv_omega), if_pos ⟨hvector, rfl⟩]
  · omega

/-- The place of component `k` of a new vector: that of its progs offset in an earlier field, or its place in the
vector. -/
def Fields.componentSlot (s : Fields) (engineofs progsofs : ℤ) (k : ℕ) : ℕ :=
  if 0 ≤ engineofs then s.slot engineofs progsofs + k
  else (holder s.field (.ofInt 32 (progsofs + k))).getD (s.slot engineofs progsofs + k)

/-- A new field has a place that its components are placed by. -/
def Placed (engineofs progsofs : ℤ) : Prop :=
  0 ≤ engineofs ∨ engineofs = -1 ∧ 0 ≤ progsofs ∧ BitVec.ofInt 32 progsofs ≠ -1

/-- The place that is looked up for a component, with the vector and the components before it in the table. -/
theorem slot_component {t : Fields} (hplaced : Placed engineofs progsofs) {k : ℕ}
    (hholder : ¬0 ≤ engineofs → holder t.field (.ofInt 32 (progsofs + k)) =
      (holder s.field (.ofInt 32 (progsofs + k))).or (some (s.slot engineofs progsofs + k))) :
    t.slot (advance engineofs (4 * k)) (advance progsofs k) = s.componentSlot engineofs progsofs k := by
  obtain hengine | ⟨rfl, hprogs, -⟩ := hplaced
  · rw [Fields.componentSlot, if_pos hengine, advance, if_neg (by omega), Fields.slot, if_pos (by omega), Fields.slot,
      if_pos hengine]
    omega
  · have hadvance : advance progsofs k = progsofs + k := if_neg (by omega)
    rw [Fields.componentSlot, if_neg (by decide), hadvance, advance, if_pos rfl, Fields.slot, if_neg (by decide),
      if_pos (by omega), hholder (by decide)]
    cases holder s.field (.ofInt 32 (progsofs + k)) <;> rfl

theorem componentSlot_zero (hplaced : Placed engineofs progsofs) :
    s.componentSlot engineofs progsofs 0 = s.slot engineofs progsofs := by
  obtain hengine | ⟨rfl, hprogs, -⟩ := hplaced
  · rw [Fields.componentSlot, if_pos hengine, Nat.add_zero]
  · rw [Fields.componentSlot, if_neg (by decide), Fields.slot, if_neg (by decide), if_pos hprogs, Int.natCast_zero,
      Int.add_zero, Nat.add_zero]
    cases holder s.field (.ofInt 32 progsofs) <;> rfl

end Holder

/-! ## One call -/

theorem component_ne {name : List QByte} {j k : ℕ} (hj : j < 3) (hk : k < 3) (hne : j ≠ k) :
    component name j ≠ component name k := by
  rw [component, component]
  intro h
  have hsuffix := append_cancel_left h
  simp only [List.cons.injEq, and_true, true_and] at hsuffix
  bv_omega

/-- What one call does. -/
structure Registers (s : Fields) (type : Etype) (name : List QByte) (engineofs progsofs : ℤ) (ret : ℤ) (s' : Fields) :
    Prop where
  /-- Fields that are known keep their places. -/
  kept : s.places <+: s'.places
  /-- A known field, or a new one that is not a vector, is returned by its place. -/
  known : ∀ ofs, s.placeOf name type = some ofs → ret = ofs - s.fieldadjust ∧ s'.places = s.places
  added : s.placeOf name type = none → s'.placeOf name type = some (s.slot engineofs progsofs)
  scalar : s.placeOf name type = none → type ≠ .vector → ret = s.slot engineofs progsofs - s.fieldadjust ∧
    s'.places = s.places ++ [(name, type, s.slot engineofs progsofs)]
  /-- A vector brings the components along that have no field. -/
  components : s.placeOf name type = none → type = .vector → Placed engineofs progsofs →
    ∀ k < 3, s.placeOf (component name k) .float = none →
      s'.placeOf (component name k) .float = some (s.componentSlot engineofs progsofs k)
  vector : s.placeOf name type = none → type = .vector → Placed engineofs progsofs → s.fieldadjust = 0 →
    s.placeOf (component name 0) .float = none → ret = s.slot engineofs progsofs
  /-- A progs offset that is held goes over a field that holds it. -/
  shared : engineofs < 0 → 0 ≤ progsofs → ∀ ofs, holder s.field (.ofInt 32 progsofs) = some ofs →
    s.slot engineofs progsofs = ofs ∧ ∃ f ∈ s.field, f.holds (.ofInt 32 progsofs) = some ofs
  /-- Any other goes behind all fields. -/
  apart : engineofs < 0 → (0 ≤ progsofs → ∀ f ∈ s.field, f.holds (.ofInt 32 progsofs) = none) →
    ∀ p ∈ s.places, p.2.2 + p.2.1.size ≤ s.slot engineofs progsofs

section Register

variable {s s' : Fields} {type : Etype} {name : List QByte} {engineofs progsofs ret : ℤ}

theorem slot_shared (hengine : engineofs < 0) (hprogs : 0 ≤ progsofs) {ofs : ℕ}
    (hholder : holder s.field (.ofInt 32 progsofs) = some ofs) :
    s.slot engineofs progsofs = ofs ∧ ∃ f ∈ s.field, f.holds (.ofInt 32 progsofs) = some ofs := by
  refine ⟨?_, exists_of_findSome?_eq_some hholder⟩
  rw [Fields.slot, if_neg (by omega), if_pos hprogs, hholder, Option.getD_some]

theorem slot_apart (hcovered : Covered s) (hengine : engineofs < 0)
    (hnone : 0 ≤ progsofs → ∀ f ∈ s.field, f.holds (.ofInt 32 progsofs) = none) :
    ∀ p ∈ s.places, p.2.2 + p.2.1.size ≤ s.slot engineofs progsofs := by
  have hend : s.slot engineofs progsofs = s.fieldsSize / 4 := by
    rw [Fields.slot, if_neg (by omega)]
    split
    next hprogs =>
      have hholder : holder s.field (.ofInt 32 progsofs) = none := findSome?_eq_none_iff.mpr (hnone hprogs)
      rw [hholder, Option.getD_none]
    next => rfl
  intro p hp
  rw [hend, Nat.le_div_iff_mul_le (by decide)]
  exact hcovered p hp

/-- The stages of a call for a vector that is new. -/
theorem registerFieldVar_vector (hnew : s.lookup name .vector = none)
    (h : s.registerFieldVar .vector name engineofs progsofs = some (ret, s')) :
    ∃ s₁ s₂ s₃ new₁ new₂ new₃ new₄ ofs₁ ofs₂ ofs₃ ofs₄,
      s.registerOne .vector name engineofs progsofs = some (new₁, ofs₁, s₁) ∧
      s₁.registerOne .float (component name 0) engineofs progsofs = some (new₂, ofs₂, s₂) ∧
      s₂.registerOne .float (component name 1) (advance engineofs 4) (advance progsofs 1) = some (new₃, ofs₃, s₃) ∧
      s₃.registerOne .float (component name 2) (advance engineofs 8) (advance progsofs 2) = some (new₄, ofs₄, s') ∧
      ret = ofs₂ - s.fieldadjust - s.fieldadjust := by
  obtain ⟨⟨new₁, ofs₁, s₁⟩, h₁, h⟩ := Option.bind_eq_some_iff.mp h
  obtain ⟨rfl, -, -⟩ := registerOne_new hnew h₁
  dsimp only at h
  rw [if_pos ⟨rfl, rfl⟩] at h
  obtain ⟨⟨new₂, ofs₂, s₂⟩, h₂, h⟩ := Option.bind_eq_some_iff.mp h
  obtain ⟨⟨new₃, ofs₃, s₃⟩, h₃, h⟩ := Option.bind_eq_some_iff.mp h
  obtain ⟨⟨new₄, ofs₄, s₄⟩, h₄, h⟩ := Option.bind_eq_some_iff.mp h
  cases h
  exact ⟨_, _, _, _, _, _, _, _, _, _, _, h₁, h₂, h₃, h₄, rfl⟩

/-- A call for a field that is known, or for a new one that is not a vector. -/
theorem registerFieldVar_one (hone : s.lookup name type = none → type ≠ .vector)
    (h : s.registerFieldVar type name engineofs progsofs = some (ret, s')) :
    ∃ new ofs, s.registerOne type name engineofs progsofs = some (new, ofs, s') ∧ ret = ofs - s.fieldadjust := by
  obtain ⟨⟨new, ofs, s₁⟩, h₁, h⟩ := Option.bind_eq_some_iff.mp h
  have hnot : ¬((new : Prop) ∧ type = .vector) := by
    rintro ⟨hnew, hvector⟩
    cases hf : s.lookup name type with
    | none => exact hone hf hvector
    | some f =>
      rw [(registerOne_known hf h₁).1] at hnew
      cases hnew
  dsimp only at h
  rw [if_neg hnot] at h
  cases h
  exact ⟨_, _, h₁, rfl⟩

@[simp] theorem advance_zero (o : ℤ) : advance o 0 = o := by
  rw [advance]
  split <;> omega

/-- The places of the components of a vector that is new. -/
theorem placeOf_component (hnew : s.lookup name .vector = none) (hplaced : Placed engineofs progsofs)
    (h : s.registerFieldVar .vector name engineofs progsofs = some (ret, s')) {k : ℕ} (hk : k < 3)
    (hfresh : s.placeOf (component name k) .float = none) :
    s'.placeOf (component name k) .float = some (s.componentSlot engineofs progsofs k) := by
  obtain ⟨s₁, s₂, s₃, _, _, _, _, _, _, _, _, h₁, h₂, h₃, h₄, -⟩ := registerFieldVar_vector hnew h
  have hfresh₁ := (placeOf_registerOne_of_ne (.inr (nofun : Etype.vector ≠ .float)) h₁).trans hfresh
  -- The vector holds the progs offsets of its components, as far as no field before it does.
  have hholder₁ : ∀ k : ℕ, k < 3 → ¬0 ≤ engineofs → holder s₁.field (.ofInt 32 (progsofs + k)) =
      (holder s.field (.ofInt 32 (progsofs + k))).or (some (s.slot engineofs progsofs + k)) := by
    intro k hk hengine
    obtain ⟨-, -, hset⟩ := hplaced.resolve_left hengine
    obtain ⟨-, rfl, rfl⟩ := registerOne_new hnew h₁
    rw [holder_append_singleton, BitVec.ofInt_add, BitVec.ofInt_natCast]
    exact congrArg _ (holds_vector rfl hset hk)
  have hprogs : ¬0 ≤ engineofs → 0 ≤ progsofs := fun hengine => (hplaced.resolve_left hengine).2.1
  have hadvance : ¬0 ≤ engineofs → advance progsofs 1 = progsofs + 1 := fun hengine =>
    if_neg (by have := hprogs hengine; omega)
  obtain _ | _ | _ | k := k
  · have hslot := slot_component (t := s₁) hplaced (hholder₁ 0 hk)
    rw [Nat.cast_zero, mul_zero, advance_zero, advance_zero] at hslot
    rw [← hslot]
    exact placeOf_of_kept ((prefix_registerOne h₃).trans (prefix_registerOne h₄))
      (placeOf_registerOne (placeOf_eq_none.mp hfresh₁) h₂)
  · have hholder₂ : ¬0 ≤ engineofs → holder s₂.field (.ofInt 32 (progsofs + (1 : ℕ))) = _ := fun hengine =>
      (holder_registerOne (by rw [BitVec.ofInt_add]; bv_omega) h₂).trans (hholder₁ 1 hk hengine)
    have hslot := slot_component (t := s₂) hplaced hholder₂
    have hfresh₂ := (placeOf_registerOne_of_ne (.inl (component_ne (by decide) hk (by decide))) h₂).trans hfresh₁
    rw [← hslot]
    exact placeOf_of_kept (prefix_registerOne h₄) (placeOf_registerOne (placeOf_eq_none.mp hfresh₂) h₃)
  · have hholder₂ : ¬0 ≤ engineofs → holder s₂.field (.ofInt 32 (progsofs + (2 : ℕ))) = _ := fun hengine =>
      (holder_registerOne (by rw [BitVec.ofInt_add]; bv_omega) h₂).trans (hholder₁ 2 hk hengine)
    have hholder₃ : ¬0 ≤ engineofs → holder s₃.field (.ofInt 32 (progsofs + (2 : ℕ))) = _ := fun hengine =>
      (holder_registerOne (by rw [hadvance hengine, BitVec.ofInt_add, BitVec.ofInt_add]; bv_omega) h₃).trans
        (hholder₂ hengine)
    have hslot := slot_component (t := s₃) hplaced hholder₃
    have hfresh₂ := (placeOf_registerOne_of_ne (.inl (component_ne (by decide) hk (by decide))) h₂).trans hfresh₁
    have hfresh₃ := (placeOf_registerOne_of_ne (.inl (component_ne (by decide) hk (by decide))) h₃).trans hfresh₂
    rw [← hslot]
    exact placeOf_registerOne (placeOf_eq_none.mp hfresh₃) h₄
  · omega

/-- The first component of a vector begins where the vector does. -/
theorem ret_vector (hnew : s.lookup name .vector = none) (hplaced : Placed engineofs progsofs)
    (hadjust : s.fieldadjust = 0) (hfresh : s.placeOf (component name 0) .float = none)
    (h : s.registerFieldVar .vector name engineofs progsofs = some (ret, s')) : ret = s.slot engineofs progsofs := by
  obtain ⟨s₁, s₂, s₃, _, _, _, _, _, ofs₂, _, _, h₁, h₂, h₃, h₄, rfl⟩ := registerFieldVar_vector hnew h
  have hfresh₁ := (placeOf_registerOne_of_ne (.inr (nofun : Etype.vector ≠ .float)) h₁).trans hfresh
  have hplace : s'.placeOf (component name 0) .float = some ofs₂ := by
    obtain ⟨-, rfl, -⟩ := registerOne_new (placeOf_eq_none.mp hfresh₁) h₂
    exact placeOf_of_kept ((prefix_registerOne h₃).trans (prefix_registerOne h₄))
      (placeOf_registerOne (placeOf_eq_none.mp hfresh₁) h₂)
  have hslot := placeOf_component hnew hplaced h (by decide) hfresh
  rw [hplace, componentSlot_zero hplaced, Option.some.injEq] at hslot
  rw [hadjust, hslot]
  omega

theorem prefix_registerFieldVar (h : s.registerFieldVar type name engineofs progsofs = some (ret, s')) :
    s.places <+: s'.places := by
  by_cases hvector : s.lookup name type = none ∧ type = .vector
  · obtain ⟨hnew, rfl⟩ := hvector
    obtain ⟨s₁, s₂, s₃, _, _, _, _, _, _, _, _, h₁, h₂, h₃, h₄, -⟩ := registerFieldVar_vector hnew h
    exact (prefix_registerOne h₁).trans ((prefix_registerOne h₂).trans
      ((prefix_registerOne h₃).trans (prefix_registerOne h₄)))
  · obtain ⟨_, _, hone, -⟩ := registerFieldVar_one (fun hnew => not_and.mp hvector hnew) h
    exact prefix_registerOne hone

theorem covered_registerFieldVar (hcovered : Covered s)
    (h : s.registerFieldVar type name engineofs progsofs = some (ret, s')) : Covered s' := by
  by_cases hvector : s.lookup name type = none ∧ type = .vector
  · obtain ⟨hnew, rfl⟩ := hvector
    obtain ⟨s₁, s₂, s₃, _, _, _, _, _, _, _, _, h₁, h₂, h₃, h₄, -⟩ := registerFieldVar_vector hnew h
    exact covered_registerOne (covered_registerOne (covered_registerOne (covered_registerOne hcovered h₁) h₂) h₃) h₄
  · obtain ⟨_, _, hone, -⟩ := registerFieldVar_one (fun hnew => not_and.mp hvector hnew) h
    exact covered_registerOne hcovered hone

/-- A field that is added is found at its slot. -/
theorem placeOf_registerFieldVar (hnew : s.lookup name type = none)
    (h : s.registerFieldVar type name engineofs progsofs = some (ret, s')) :
    s'.placeOf name type = some (s.slot engineofs progsofs) := by
  by_cases hvector : type = .vector
  · subst hvector
    obtain ⟨s₁, s₂, s₃, _, _, _, _, _, _, _, _, h₁, h₂, h₃, h₄, -⟩ := registerFieldVar_vector hnew h
    exact placeOf_of_kept ((prefix_registerOne h₂).trans ((prefix_registerOne h₃).trans (prefix_registerOne h₄)))
      (placeOf_registerOne hnew h₁)
  · obtain ⟨_, _, hone, -⟩ := registerFieldVar_one (fun _ => hvector) h
    exact placeOf_registerOne hnew hone

theorem registers (hcovered : Covered s) (h : s.registerFieldVar type name engineofs progsofs = some (ret, s')) :
    Registers s type name engineofs progsofs ret s' where
  kept := prefix_registerFieldVar h
  known ofs hofs := by
    obtain ⟨f, hf, rfl⟩ := Option.map_eq_some_iff.mp hofs
    obtain ⟨_, _, hone, rfl⟩ := registerFieldVar_one (fun hnone => by rw [hf] at hnone; cases hnone) h
    have hplaces := places_registerOne hone
    obtain ⟨-, rfl, -⟩ := registerOne_known hf hone
    rw [hf, if_neg nofun, append_nil] at hplaces
    exact ⟨rfl, hplaces⟩
  added hnew := placeOf_registerFieldVar (placeOf_eq_none.mp hnew) h
  scalar hnew htype := by
    have hnew := placeOf_eq_none.mp hnew
    obtain ⟨_, _, hone, rfl⟩ := registerFieldVar_one (fun _ => htype) h
    have hplaces := places_registerOne hone
    obtain ⟨-, rfl, -⟩ := registerOne_new hnew hone
    rw [if_pos hnew] at hplaces
    exact ⟨rfl, hplaces⟩
  components hnew htype hplaced k hk hfresh := by
    subst htype
    exact placeOf_component (placeOf_eq_none.mp hnew) hplaced h hk hfresh
  vector hnew htype hplaced hadjust hfresh := by
    subst htype
    exact ret_vector (placeOf_eq_none.mp hnew) hplaced hadjust hfresh h
  shared hengine hprogs _ hholder := slot_shared hengine hprogs hholder
  apart hengine hnone := slot_apart hcovered hengine hnone

end Register

/-! ## Runs -/

section Run

variable {s s' : Fields} {ops : List Op}

theorem exec_keeps {op : Op} (h : s.exec op = some s') :
    s.places <+: s'.places ∧ (Covered s → Covered s') := by
  cases op with
  | register type name engineofs progsofs =>
    obtain ⟨⟨ret, s₁⟩, hregister, rfl⟩ := Option.map_eq_some_iff.mp h
    exact ⟨prefix_registerFieldVar hregister, fun hcovered => covered_registerFieldVar hcovered hregister⟩
  | adjust engineofs =>
    cases h
    split
    · exact ⟨prefix_rfl, id⟩
    · exact ⟨prefix_rfl, id⟩
  | flush =>
    cases h
    have hplaces : (s.field.map fun f => { f with progsofs := -1 }).map Fdef.place = s.places := by
      rw [map_map]
      rfl
    exact ⟨hplaces ▸ prefix_rfl, fun hcovered p hp => hcovered p (hplaces ▸ hp)⟩

theorem run_keeps (h : s.run ops = some s') : s.places <+: s'.places ∧ (Covered s → Covered s') := by
  induction ops generalizing s with
  | nil =>
    cases h
    exact ⟨prefix_rfl, id⟩
  | cons op ops ih =>
    rw [Fields.run, foldlM_cons, Option.bind_eq_bind, Option.bind_eq_some_iff] at h
    obtain ⟨s₁, hop, hops⟩ := h
    obtain ⟨hkept, hcovered⟩ := exec_keeps hop
    obtain ⟨hkept', hcovered'⟩ := ih hops
    exact ⟨hkept.trans hkept', fun h => hcovered' (hcovered h)⟩

end Run

end FieldVars

end FteQuake
