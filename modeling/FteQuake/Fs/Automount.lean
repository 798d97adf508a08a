import FteQuake.Fs.SearchPaths
import Mathlib.Data.Finset.Card

/-!
# Packs that maps ask for

`FS_AutoMountForMap` of `fs.c` mounts the packs that `data/mapdeps.txt` names for a map, and records
those that were not there before. `FS_AutoUnmountStale` runs when the load is committed: it unmounts
what is recorded and not wanted by the map, unless `fs_addons.txt` lists it. The commands `fs_load`,
`fs_unload` and `fs_useaddons` come in between.

`Inv` is what a run keeps as long as the packs it names are apart from each other. `Drops` is what
is to hold of a committed load.
-/

namespace FteQuake

open List Option

namespace Fs

/-- `FS_MAXAUTOMOUNT`. -/
def fsMaxautomount : ℕ := 8

/-- The search paths, `fs_automounted`, `fs_automountwant` and the lines of `fs_addons.txt`, without
white space at their ends. A record that the program does not have: the packs that were named by
`fs_addons.txt`, `fs_load` or `fs_useaddons` since the search paths were built. -/
structure FsState where
  searchpaths : SearchPaths
  automounted : List Path
  automountwant : List Path
  addons : List Path
  adopted : List Path
  deriving DecidableEq, Repr

/-- A name in a list of names. -/
def named (l : List Path) (p : Path) : Bool := l.any fun q => sameName q p

/-! ## The code -/

section Code

variable (m : Machine)

/-- A line of `fs_addons.txt` that is skipped. -/
def isComment : Path → Bool
  | [] => true
  | '#' :: _ => true
  | '/' :: '/' :: _ => true
  | _ => false

/-- `FS_Addon_IsListed`. -/
def isListed (addons : List Path) (syspath : Path) : Bool :=
  addons.any fun line => !isComment line && (m.resolve line).elim false (sameName · syspath)

/-- `FS_Addon_SaveList`, with a line to add. -/
def saveAdd (addons : List Path) (add : Path) : List Path :=
  if named addons add then addons else addons ++ [add]

/-- `FS_Addon_SaveList`, with a line to remove. -/
def saveDel (addons : List Path) (del : Path) : List Path :=
  addons.filter fun line => !sameName line del

/-- The directory of a pack, or nothing if it is not installed. -/
def packOf (spec : Path) : Path := (m.resolve spec).getD []

/-- The directory that stands in for a pack on a proven load. -/
def cacheOf (cached : Bool) (spec : Path) : Option Path :=
  if cached then (m.resolve spec).bind m.cacheDir else none

/-- What is mounted for a pack. -/
def target (cached : Bool) (spec : Path) : Option Path :=
  (cacheOf m cached spec).orElse fun _ => m.resolve spec

/-- `FS_AutoMountForMap`, for one pack: the mount. -/
def mountTarget (hdmodels cached : Bool) (s : SearchPaths) (spec : Path) : SearchPaths :=
  match cacheOf m cached spec with
  | some dir => (s.addonMount m dir .auto dir).2
  | none =>
    ((s.addonMountHD m hdmodels (packOf m spec) .auto spec).addonMount m (packOf m spec) .auto
      spec).2

/-- `FS_AutoMountForMap`, for one pack. -/
def autoMountOne (hdmodels cached : Bool) (s : FsState) (spec : Path) : FsState :=
  let path := target m cached spec
  let already := path.elim false s.searchpaths.isMounted
  { s with
    searchpaths := mountTarget m hdmodels cached s.searchpaths spec
    automounted := path.elim s.automounted fun path =>
      if !already && !named s.automounted path && s.automounted.length < fsMaxautomount then
        s.automounted ++ [path]
      else s.automounted }

/-- `FS_AutoMountForMap`. `deps` are the packs of the map in `data/mapdeps.txt`, and nothing if the
file is not read. -/
def autoMountForMap (automount hdmodels cached : Bool) (deps : Option (List Path)) (s : FsState) :
    FsState :=
  if !automount then s
  else deps.elim s fun deps =>
    let specs := deps.take fsMaxautomount
    specs.foldl (autoMountOne m hdmodels cached)
      { s with automountwant := specs.filterMap (target m cached) }

/-- The loop of `FS_AutoUnmountStale`, with what is left of `fs_automounted`. -/
def dropStale (want addons : List Path) : List Path → SearchPaths → List Path × SearchPaths
  | [], s => ([], s)
  | a :: automounted, s =>
    if named want a then
      let (kept, s) := dropStale want addons automounted s
      (a :: kept, s)
    else if isListed m addons a then dropStale want addons automounted s
    else dropStale want addons automounted (s.addonUnmount a)

/-- `FS_AutoUnmountStale`. -/
def autoUnmountStale (automount autounmount : Bool) (s : FsState) : FsState :=
  if !automount || !autounmount then s
  else
    let (automounted, searchpaths) := dropStale m s.automountwant s.addons s.automounted
      s.searchpaths
    { s with automounted := automounted, searchpaths := searchpaths }

/-- A pack that a command names is mounted with its siblings. -/
def useAddon (hdmodels : Bool) (s : FsState) (spec : Path) : FsState :=
  { s with
    searchpaths := ((s.searchpaths.addonMountHD m hdmodels (packOf m spec) .user spec).addonMount m
      (packOf m spec) .user spec).2
    adopted := s.adopted ++ (m.resolve spec).toList }

/-- `FS_UseAddons_f`. -/
def useAddons (lazyaddons hdmodels : Bool) (specs : List Path) (s : FsState) : FsState :=
  if !lazyaddons then s
  else (specs.filter (· ≠ [])).foldl (useAddon m hdmodels) s

/-- `FS_Load_f`. -/
def load (arg : Path) (s : FsState) : FsState :=
  let mounted := s.searchpaths.addonMount m (packOf m arg) .user arg
  if !mounted.1 then s
  else
    { s with
      searchpaths := mounted.2
      addons := saveAdd s.addons arg
      adopted := s.adopted ++ (m.resolve arg).toList }

/-- `FS_Unload_f`, up to the restart it asks for. -/
def unload (arg : Path) (s : FsState) : FsState := { s with addons := saveDel s.addons arg }

/-- A rebuild of the search paths: `FS_FreePaths`, the paths of the mod itself, and
`FS_RemountAddons`. -/
def restart (hdmodels : Bool) (base : List Path) (s : FsState) : FsState :=
  (s.addons.filter (!isComment ·)).foldl (useAddon m hdmodels)
    ⟨base.map fun p => ⟨p, false, [], .user⟩, [], [], s.addons, []⟩

end Code

/-! ## Runs -/

/-- What happens to the search paths. A load names the packs of its map, says whether the cache is
proven to cover it, and is committed or aborted. -/
inductive Op
  | map (automount autounmount hdmodels cached : Bool) (deps : Option (List Path)) (commit : Bool)
  | load (arg : Path)
  | unload (arg : Path)
  | restart (hdmodels : Bool) (base : List Path)
  | useAddons (lazyaddons hdmodels : Bool) (specs : List Path)

/-- A step. -/
def exec (m : Machine) (s : FsState) : Op → FsState
  | .map automount autounmount hdmodels cached deps commit =>
    let s := autoMountForMap m automount hdmodels cached deps s
    if commit then autoUnmountStale m automount autounmount s else s
  | .load arg => load m arg s
  | .unload arg => unload arg s
  | .restart hdmodels base => restart m hdmodels base s
  | .useAddons lazyaddons hdmodels specs => useAddons m lazyaddons hdmodels specs s

/-- The search paths before anything is mounted. -/
def boot (m : Machine) (addons : List Path) : FsState :=
  ⟨[], [], [], addons, addons.filterMap m.resolve⟩

/-- The states of runs whose steps meet a condition. -/
inductive Run (m : Machine) (C : FsState → Op → Prop) : FsState → Prop
  | boot (addons : List Path) : Run m C (boot m addons)
  | step {s : FsState} (op : Op) : Run m C s → C s op → Run m C (exec m s op)

/-- What the packs of a map are mounted as. -/
def wants (m : Machine) (cached : Bool) (deps : Option (List Path)) : List Path :=
  (deps.getD []).filterMap (target m cached)

/-- A committed load unmounts nothing that `fs_addons.txt`, `fs_load` or `fs_useaddons` mounted, and
nothing of a pack that is listed or that the map wants; and what `FS_AutoMountForMap` mounted is
unmounted unless the map wants it or the user has taken it over. -/
structure Drops (m : Machine) (wants : List Path) (before after : FsState) : Prop where
  owned : ∀ sp ∈ before.searchpaths, sp ∉ after.searchpaths →
    sp.owner = .auto ∧ isListed m before.addons sp.pack = false
  wanted : ∀ w ∈ wants, ∀ sp ∈ before.searchpaths, isFamily sp.logicalpath w = true →
    sp ∈ after.searchpaths
  stale : ∀ sp ∈ after.searchpaths, sp.addon = true → sp.owner = .auto →
    named wants sp.pack = true ∨ named after.adopted sp.pack = true

/-- A step does what is to hold of it, if it is a committed load. -/
def Kept (m : Machine) (s : FsState) : Op → Prop
  | .map automount autounmount hdmodels cached deps true =>
    Drops m (wants m cached deps) (autoMountForMap m automount hdmodels cached deps s)
      (exec m s (.map automount autounmount hdmodels cached deps true))
  | _ => True

/-! ## The condition -/

/-- Packs of which none is in the family of another; names that differ in case open alike. -/
structure Apart (m : Machine) (D : Path → Prop) : Prop where
  apart : ∀ p q, D p → D q → isFamily q p = true → fold p = fold q
  nonempty : ¬ D []
  canOpen : ∀ p q, D p → D q → fold p = fold q → m.canOpen p = m.canOpen q

/-- A name stands for a pack of `D`; its high definition sibling lies beside it, and a directory of
the cache is its own name. -/
structure SpecOk (m : Machine) (D : Path → Prop) (spec : Path) : Prop where
  pack : ∀ p, m.resolve spec = some p → D p
  hd : ∀ q, m.resolve (SearchPaths.hdSpec spec) = some q →
    ∃ p, m.resolve spec = some p ∧ isFamily q p = true
  cache : ∀ p dir, m.resolve spec = some p → m.cacheDir p = some dir →
    D dir ∧ m.resolve dir = some dir

/-- What is neither mounted nor recorded, of what a map asks for. -/
def newPacks (m : Machine) (cached : Bool) (s : FsState) (specs : List Path) : Finset Path :=
  (((specs.filterMap (target m cached)).filter fun p =>
    !s.searchpaths.isMounted p && !named s.automounted p).map fold).toFinset

/-- `fs_automounted` has room for all that a map adds to it. -/
def Room (m : Machine) (cached : Bool) (s : FsState) (specs : List Path) : Prop :=
  s.automounted.length + (newPacks m cached s specs).card ≤ fsMaxautomount

/-- Nothing of a pack that is recorded is left to mount for a command. -/
def HdSettled (m : Machine) (hdmodels : Bool) (s : FsState) (spec : Path) : Prop :=
  ∀ p q, m.resolve spec = some p → named s.automounted p = true → hdmodels = true →
    m.resolve (SearchPaths.hdSpec spec) = some q → m.hasFiles q = true → m.canOpen q = true →
    s.searchpaths.hasPath q = true

/-- The steps of which a run keeps what is to hold. -/
def Meets (m : Machine) (D : Path → Prop) (s : FsState) : Op → Prop
  | .map automount autounmount _ cached deps commit =>
    (automount = true → ∀ l, deps = some l →
      (∀ spec ∈ l, SpecOk m D spec) ∧ Room m cached s (l.take fsMaxautomount)) ∧
    (commit = true → automount = true ∧ autounmount = true ∧
      ∃ l, deps = some l ∧ l.length ≤ fsMaxautomount)
  | .load arg => SpecOk m D arg
  | .unload _ => True
  | .restart _ _ => ∀ line ∈ s.addons, SpecOk m D line
  | .useAddons lazyaddons hdmodels specs =>
    lazyaddons = true → ∀ spec ∈ specs, SpecOk m D spec ∧ HdSettled m hdmodels s spec

/-! ## Names -/

section Names

variable {l l' : List Path} {p q : Path}

theorem named_iff : named l p = true ↔ ∃ q ∈ l, fold q = fold p := by
  simp [named, sameName]

theorem named_congr (h : fold p = fold q) : named l p = named l q := by
  rw [Bool.eq_iff_iff, named_iff, named_iff, h]

@[simp] theorem named_append : named (l ++ l') p = (named l p || named l' p) := any_append ..

theorem named_of_subset (h : l ⊆ l') (hp : named l p = true) : named l' p = true := by
  obtain ⟨q, hq, hqp⟩ := named_iff.1 hp
  exact named_iff.2 ⟨q, h hq, hqp⟩

theorem named_of_mem (h : p ∈ l) : named l p = true := named_iff.2 ⟨p, h, rfl⟩

theorem isListed_congr {m : Machine} (h : fold p = fold q) : isListed m l p = isListed m l q := by
  simp only [isListed, sameName, h]

theorem isListed_iff {m : Machine} : isListed m l p = true ↔
    ∃ line ∈ l, isComment line = false ∧ ∃ q, m.resolve line = some q ∧ fold q = fold p := by
  simp only [isListed, List.any_eq_true, Bool.and_eq_true, Bool.not_eq_true']
  constructor
  · rintro ⟨line, hline, hcomment, h⟩
    cases hr : m.resolve line with
    | none => simp [hr] at h
    | some q => exact ⟨line, hline, hcomment, q, hr, by simpa [hr, sameName] using h⟩
  · rintro ⟨line, hline, hcomment, q, hr, hq⟩
    exact ⟨line, hline, hcomment, by simp [hr, sameName, hq]⟩

end Names

/-! ## The invariant -/

/-- The search paths belong to packs that are apart, those of `FS_AutoMountForMap` to packs that are
recorded or were taken over, and those of the user to packs that are not recorded. -/
structure Inv (m : Machine) (D : Path → Prop) (s : FsState) : Prop where
  owned : ∀ sp ∈ s.searchpaths, sp.addon = true →
    D sp.pack ∧ isFamily sp.logicalpath sp.pack = true
  recorded : ∀ a ∈ s.automounted, D a
  auto : ∀ sp ∈ s.searchpaths, sp.addon = true → sp.owner = .auto →
    named s.automounted sp.pack = true ∨ named s.adopted sp.pack = true
  user : ∀ sp ∈ s.searchpaths, sp.addon = true → sp.owner = .user →
    named s.automounted sp.pack = false ∧ named s.adopted sp.pack = true
  mounted : ∀ a ∈ s.automounted, m.canOpen a = true → s.searchpaths.hasPath a = true
  listed : ∀ p, isListed m s.addons p = true → named s.adopted p = true

namespace Inv

variable {m : Machine} {D : Path → Prop} {s : FsState} {p a : Path} {sp : SearchPath}

/-- A search path is in the family of a pack exactly if it was mounted for it. -/
theorem isFamily_iff (hD : Apart m D) (h : Inv m D s) (hsp : sp ∈ s.searchpaths) (haddon : sp.addon = true) (ha : D a) :
    isFamily sp.logicalpath a = true ↔ fold a = fold sp.pack := by
  obtain ⟨hpack, hfam⟩ := h.owned sp hsp haddon
  constructor
  · intro hfam'
    rcases isFamily_comparable hfam' hfam with hpa | hap
    · exact hD.apart _ _ ha hpack hpa
    · exact (hD.apart _ _ hpack ha hap).symm
  · intro heq
    rwa [isFamily_congr rfl heq]

theorem isMounted_iff (hD : Apart m D) (h : Inv m D s) (ha : D a) :
    s.searchpaths.isMounted a = true ↔
      ∃ sp ∈ s.searchpaths, sp.addon = true ∧ fold a = fold sp.pack := by
  simp only [SearchPaths.isMounted, List.any_eq_true, Bool.and_eq_true]
  constructor
  · rintro ⟨sp, hsp, haddon, hfam⟩
    exact ⟨sp, hsp, haddon, (h.isFamily_iff hD hsp haddon ha).1 hfam⟩
  · rintro ⟨sp, hsp, haddon, heq⟩
    exact ⟨sp, hsp, haddon, (h.isFamily_iff hD hsp haddon ha).2 heq⟩

end Inv

/-! ## Mounts -/

section Mounts

variable {m : Machine} {D : Path → Prop} {s : SearchPaths} {spec p pack : Path} {owner : Owner}
  {hdmodels cached : Bool}

theorem addonMount_of_resolve (h : m.resolve spec = some p) :
    s.addonMount m pack owner spec = s.mountPath m pack owner p := by
  rw [SearchPaths.addonMount, h, elim_some]

theorem addonMountHD_adds (hok : SpecOk m D spec) (h : m.resolve spec = some p) :
    SearchPaths.Adds pack owner p s (s.addonMountHD m hdmodels pack owner spec) := by
  rw [SearchPaths.addonMountHD]
  split
  · exact .refl
  cases hq : m.resolve (SearchPaths.hdSpec spec) with
  | none => exact .refl
  | some q =>
    obtain ⟨p', hp', hfam⟩ := hok.hd q hq
    obtain rfl := some.inj (h.symm.trans hp')
    rw [elim_some]
    split
    · rw [addonMount_of_resolve hq]
      exact SearchPaths.mountPath_adds.mono hfam
    · exact .refl

theorem addonMountHD_of_none (hok : SpecOk m D spec) (h : m.resolve spec = none) :
    s.addonMountHD m hdmodels pack owner spec = s := by
  rw [SearchPaths.addonMountHD]
  split
  · rfl
  cases hq : m.resolve (SearchPaths.hdSpec spec) with
  | none => rfl
  | some q =>
    obtain ⟨p, hp, -⟩ := hok.hd q hq
    simp [h] at hp

/-- A mount with the siblings adds search paths of the pack, and the directory is there after it if
it can be opened. -/
theorem addonMount_both (hok : SpecOk m D spec) (h : m.resolve spec = some p) :
    SearchPaths.Adds pack owner p s
        ((s.addonMountHD m hdmodels pack owner spec).addonMount m pack owner spec).2 ∧
      (m.canOpen p = true → ((s.addonMountHD m hdmodels pack owner spec).addonMount m pack owner
        spec).2.hasPath p = true) := by
  rw [addonMount_of_resolve h]
  exact ⟨(addonMountHD_adds hok h).trans SearchPaths.mountPath_adds, SearchPaths.mountPath_hasPath⟩

theorem packOf_of_resolve (h : m.resolve spec = some p) : packOf m spec = p := by
  rw [packOf, h, getD_some]

theorem target_of_none (h : m.resolve spec = none) : target m cached spec = none := by
  cases cached <;> simp [target, cacheOf, h]

theorem target_mem (hok : SpecOk m D spec) (h : target m cached spec = some p) : D p := by
  cases hr : m.resolve spec with
  | none => simp [target_of_none hr] at h
  | some q =>
    cases hc : cacheOf m cached spec with
    | none =>
      obtain rfl : q = p := by simpa [target, hc, hr] using h
      exact hok.pack q hr
    | some dir =>
      obtain rfl : dir = p := by simpa [target, hc] using h
      obtain ⟨-, hdir⟩ : cached = true ∧ m.cacheDir q = some dir := by
        simpa [cacheOf, hr] using hc
      exact (hok.cache q dir hr hdir).1

theorem mountTarget_spec (hok : SpecOk m D spec) (h : target m cached spec = some p) :
    SearchPaths.Adds p .auto p s (mountTarget m hdmodels cached s spec) ∧
      (m.canOpen p = true → (mountTarget m hdmodels cached s spec).hasPath p = true) := by
  cases hr : m.resolve spec with
  | none => simp [target_of_none hr] at h
  | some q =>
    cases hc : cacheOf m cached spec with
    | none =>
      obtain rfl : q = p := by simpa [target, hc, hr] using h
      simp only [mountTarget, hc]
      rw [packOf_of_resolve hr]
      exact addonMount_both hok hr
    | some dir =>
      obtain rfl : dir = p := by simpa [target, hc] using h
      obtain ⟨-, hdir⟩ : cached = true ∧ m.cacheDir q = some dir := by
        simpa [cacheOf, hr] using hc
      have hself := (hok.cache q dir hr hdir).2
      simp only [mountTarget, hc]
      rw [addonMount_of_resolve hself]
      exact ⟨SearchPaths.mountPath_adds, SearchPaths.mountPath_hasPath⟩

theorem mountTarget_of_none (hok : SpecOk m D spec) (h : target m cached spec = none) :
    mountTarget m hdmodels cached s spec = s := by
  obtain ⟨hc, hr⟩ : cacheOf m cached spec = none ∧ m.resolve spec = none := by
    cases hc : cacheOf m cached spec with
    | none => exact ⟨rfl, by simpa [target, hc] using h⟩
    | some dir => simp [target, hc] at h
  simp only [mountTarget, hc]
  rw [addonMountHD_of_none hok hr, SearchPaths.addonMount, hr, elim_none]

end Mounts

/-! ## One pack of a map -/

section AutoMount

variable {m : Machine} {D : Path → Prop} {s : FsState} {spec p : Path} {hdmodels cached : Bool}

/-- What `fs_automounted` becomes when `p` has been mounted. -/
def record (s : FsState) (p : Path) : List Path :=
  if !s.searchpaths.isMounted p && !named s.automounted p &&
    s.automounted.length < fsMaxautomount then s.automounted ++ [p] else s.automounted

theorem subset_record : s.automounted ⊆ record s p := by
  rw [record]
  split
  · exact subset_append_left ..
  · exact List.Subset.refl _

theorem mem_record {a : Path} (h : a ∈ record s p) :
    a ∈ s.automounted ∨ (a = p ∧ s.searchpaths.isMounted p = false) := by
  rw [record] at h
  split at h
  · next hnew =>
    rcases mem_append.1 h with h | h
    · exact .inl h
    · simp only [Bool.and_eq_true, Bool.not_eq_true'] at hnew
      exact .inr ⟨by simpa using h, hnew.1.1⟩
  · exact .inl h

/-- There is room for `p`, if it is new. -/
def RoomFor (s : FsState) (p : Path) : Prop :=
  s.searchpaths.isMounted p = false → named s.automounted p = false →
    s.automounted.length < fsMaxautomount

theorem named_record (hroom : RoomFor s p) (h : s.searchpaths.isMounted p = false) :
    named (record s p) p = true := by
  by_cases hrec : named s.automounted p = true
  · exact named_of_subset subset_record hrec
  · have hrec' : named s.automounted p = false := by simpa using hrec
    rw [record, if_pos (by simp [h, hrec', hroom h hrec']), named_append]
    simp [named_of_mem]

/-- A pack that was mounted for a map keeps the invariant. -/
theorem Inv.autoMount (hD : Apart m D) (h : Inv m D s) (hp : D p) {s' : SearchPaths}
    (hadds : SearchPaths.Adds p .auto p s.searchpaths s')
    (hopen : m.canOpen p = true → s'.hasPath p = true) (hroom : RoomFor s p) :
    Inv m D { s with searchpaths := s', automounted := record s p } := by
  obtain ⟨l, rfl, hl⟩ := id hadds
  have hmem {sp : SearchPath} (hsp : sp ∈ s.searchpaths ++ l) :
      sp ∈ s.searchpaths ∨ MountedFor p .auto p sp :=
    (mem_append.1 hsp).imp id (hl sp)
  refine ⟨?_, ?_, ?_, ?_, ?_, h.listed⟩
  · intro sp hsp haddon
    rcases hmem hsp with hsp | hnew
    · exact h.owned sp hsp haddon
    · rw [hnew.pack]
      exact ⟨hp, hnew.family⟩
  · intro a ha
    rcases mem_record ha with ha | ⟨rfl, -⟩
    · exact h.recorded a ha
    · exact hp
  · intro sp hsp haddon hauto
    rcases hmem hsp with hsp | hnew
    · exact (h.auto sp hsp haddon hauto).imp (named_of_subset subset_record) id
    · rw [hnew.pack]
      cases hm : s.searchpaths.isMounted p with
      | false => exact .inl (named_record hroom hm)
      | true =>
        -- the pack was there: it is recorded, or the user's
        obtain ⟨sp', hsp', haddon', heq⟩ := (h.isMounted_iff hD hp).1 hm
        simp only [named_congr heq]
        cases ho : sp'.owner with
        | auto => exact (h.auto sp' hsp' haddon' ho).imp (named_of_subset subset_record) id
        | user => exact .inr (h.user sp' hsp' haddon' ho).2
  · intro sp hsp haddon huser
    rcases hmem hsp with hold | hnew
    · obtain ⟨hno, hyes⟩ := h.user sp hold haddon huser
      refine ⟨?_, hyes⟩
      by_contra hrec
      obtain ⟨a, ha, heq⟩ := named_iff.1 (by simpa using hrec : named (record s p) sp.pack = true)
      rcases mem_record ha with ha | ⟨rfl, hm⟩
      · rw [named_iff.2 ⟨a, ha, heq⟩] at hno
        exact absurd hno (by decide)
      · rw [(h.isMounted_iff hD hp).2 ⟨sp, hold, haddon, heq⟩] at hm
        exact absurd hm (by decide)
    · rw [hnew.owner] at huser
      exact absurd huser (by decide)
  · intro a ha hcan
    rcases mem_record ha with ha | ⟨rfl, -⟩
    · exact hadds.hasPath (h.mounted a ha hcan)
    · exact hopen hcan

theorem autoMountOne_of_some (h : target m cached spec = some p) :
    autoMountOne m hdmodels cached s spec =
      { s with
        searchpaths := mountTarget m hdmodels cached s.searchpaths spec
        automounted := record s p } := by
  simp [autoMountOne, h, record]

theorem autoMountOne_of_none (hok : SpecOk m D spec) (h : target m cached spec = none) :
    autoMountOne m hdmodels cached s spec = s := by
  simp [autoMountOne, h, mountTarget_of_none hok h]

theorem Inv.autoMountOne (hD : Apart m D) (h : Inv m D s) (hok : SpecOk m D spec)
    (hroom : ∀ p, target m cached spec = some p → RoomFor s p) :
    Inv m D (autoMountOne m hdmodels cached s spec) := by
  cases ht : target m cached spec with
  | none =>
    rw [autoMountOne_of_none hok ht]
    exact h
  | some p =>
    rw [autoMountOne_of_some ht]
    obtain ⟨hadds, hopen⟩ := mountTarget_spec hok ht
    exact h.autoMount hD (target_mem hok ht) hadds hopen (hroom p ht)

end AutoMount

/-! ## The packs of a map -/

section AutoMountAll

variable {m : Machine} {D : Path → Prop} {s : FsState} {spec p q : Path} {specs : List Path}
  {hdmodels cached : Bool}

theorem SearchPaths.Adds.isMounted {s s' : SearchPaths} {pack root : Path} {owner : Owner}
    (h : Adds pack owner root s s') (hq : s.isMounted q = true) : s'.isMounted q = true := by
  obtain ⟨l, rfl, -⟩ := h
  rw [SearchPaths.isMounted, any_append, Bool.or_eq_true]
  exact .inl hq

theorem mem_newPacks {x : Path} : x ∈ newPacks m cached s specs ↔
    ∃ q, (∃ spec ∈ specs, target m cached spec = some q) ∧ s.searchpaths.isMounted q = false ∧
      named s.automounted q = false ∧ fold q = x := by
  simp only [newPacks, List.mem_toFinset, List.mem_map, List.mem_filter, List.mem_filterMap,
    Bool.and_eq_true, Bool.not_eq_true', and_assoc]

theorem Room.roomFor (h : Room m cached s (spec :: specs)) (ht : target m cached spec = some p) :
    RoomFor s p := by
  intro hm hrec
  have hpos : 0 < (newPacks m cached s (spec :: specs)).card :=
    Finset.card_pos.2 ⟨fold p, mem_newPacks.2 ⟨p, ⟨spec, by simp, ht⟩, hm, hrec, rfl⟩⟩
  rw [Room] at h
  omega

/-- What is new after a mount was new before. -/
theorem newPacks_autoMountOne (hok : SpecOk m D spec) (ht : target m cached spec = some p) :
    newPacks m cached (autoMountOne m hdmodels cached s spec) specs ⊆
      newPacks m cached s (spec :: specs) := by
  intro x hx
  obtain ⟨q, ⟨spec', hspec, hq⟩, hm, hrec, rfl⟩ := mem_newPacks.1 hx
  rw [autoMountOne_of_some ht] at hm hrec
  refine mem_newPacks.2 ⟨q, ⟨spec', by simp [hspec], hq⟩, ?_, ?_, rfl⟩
  · by_contra hno
    rw [(mountTarget_spec hok ht).1.isMounted (by simpa using hno)] at hm
    exact absurd hm (by decide)
  · by_contra hno
    rw [named_of_subset subset_record (by simpa using hno)] at hrec
    exact absurd hrec (by decide)

theorem not_mem_newPacks_autoMountOne (ht : target m cached spec = some p)
    (hroom : RoomFor s p) (hm : s.searchpaths.isMounted p = false) :
    fold p ∉ newPacks m cached (autoMountOne m hdmodels cached s spec) specs := by
  intro hx
  obtain ⟨q, -, -, hrec, heq⟩ := mem_newPacks.1 hx
  rw [autoMountOne_of_some ht] at hrec
  rw [named_congr heq] at hrec
  rw [named_record hroom hm] at hrec
  exact absurd hrec (by decide)

theorem Room.autoMountOne (hok : SpecOk m D spec) (h : Room m cached s (spec :: specs)) :
    Room m cached (autoMountOne m hdmodels cached s spec) specs := by
  cases ht : target m cached spec with
  | none =>
    rw [autoMountOne_of_none hok ht]
    refine Nat.le_trans (Nat.add_le_add_left (Finset.card_le_card fun x hx => ?_) _) h
    obtain ⟨q, ⟨spec', hspec, hq⟩, hrest⟩ := mem_newPacks.1 hx
    exact mem_newPacks.2 ⟨q, ⟨spec', by simp [hspec], hq⟩, hrest⟩
  | some p =>
    have hsub : newPacks m cached (Fs.autoMountOne m hdmodels cached s spec) specs ⊆
        newPacks m cached s (spec :: specs) := newPacks_autoMountOne hok ht
    have hrecord : (Fs.autoMountOne m hdmodels cached s spec).automounted = record s p := by
      rw [autoMountOne_of_some ht]
    by_cases hnew : s.searchpaths.isMounted p = false ∧ named s.automounted p = false
    · have hroom := h.roomFor ht
      have hmem : fold p ∈ newPacks m cached s (spec :: specs) :=
        mem_newPacks.2 ⟨p, ⟨spec, by simp, ht⟩, hnew.1, hnew.2, rfl⟩
      have hcard := Finset.card_le_card (Finset.subset_erase.2 ⟨hsub, not_mem_newPacks_autoMountOne ht hroom hnew.1⟩)
      rw [Finset.card_erase_of_mem hmem] at hcard
      have hlen : (record s p).length ≤ s.automounted.length + 1 := by
        rw [record]
        split <;> simp
      have hpos := Finset.card_pos.2 ⟨_, hmem⟩
      rw [Room] at h ⊢
      rw [hrecord]
      omega
    · have hlen : record s p = s.automounted := by
        rw [record, if_neg]
        intro hcond
        simp only [Bool.and_eq_true, Bool.not_eq_true'] at hcond
        exact hnew hcond.1
      rw [Room, hrecord, hlen]
      exact Nat.le_trans (Nat.add_le_add_left (Finset.card_le_card hsub) _) h

/-- The packs of a map keep the invariant, if there is room for those that are new. -/
theorem Inv.foldl_autoMountOne (hD : Apart m D) (h : Inv m D s)
    (hok : ∀ spec ∈ specs, SpecOk m D spec) (hroom : Room m cached s specs) :
    Inv m D (specs.foldl (Fs.autoMountOne m hdmodels cached) s) := by
  induction specs generalizing s with
  | nil => exact h
  | cons spec specs ih =>
    have hspec := hok spec (by simp)
    exact ih (h.autoMountOne hD hspec fun p ht => hroom.roomFor ht)
      (fun spec' h' => hok spec' (by simp [h'])) (hroom.autoMountOne hspec)

theorem Inv.autoMountForMap {automount : Bool} {deps : Option (List Path)} (hD : Apart m D)
    (h : Inv m D s) (hmeets : automount = true → ∀ l, deps = some l →
      (∀ spec ∈ l, SpecOk m D spec) ∧ Room m cached s (l.take fsMaxautomount)) :
    Inv m D (Fs.autoMountForMap m automount hdmodels cached deps s) := by
  rw [Fs.autoMountForMap]
  split
  · exact h
  next hon =>
  cases deps with
  | none => exact h
  | some l =>
    obtain ⟨hok, hroom⟩ := hmeets (by simpa using hon) l rfl
    have hw : Inv m D { s with
        automountwant := (l.take fsMaxautomount).filterMap (target m cached) } :=
      ⟨h.owned, h.recorded, h.auto, h.user, h.mounted, h.listed⟩
    exact hw.foldl_autoMountOne hD (fun spec hspec => hok spec (mem_of_mem_take hspec)) hroom

end AutoMountAll

/-! ## The drop -/

section Drop

variable {m : Machine} {D : Path → Prop} {s : FsState} {want addons l : List Path} {a : Path}
  {sp : SearchPath} {sps : SearchPaths}

theorem SearchPaths.mem_addonUnmount : sp ∈ sps.addonUnmount a ↔
    sp ∈ sps ∧ (a ≠ [] → sp.addon = true → isFamily sp.logicalpath a = false) := by
  rw [SearchPaths.addonUnmount]
  split
  · next h => simp [h]
  · next h =>
    simp only [List.mem_filter, Bool.not_eq_true', Bool.and_eq_false_iff]
    constructor
    · rintro ⟨hsp, hkeep⟩
      refine ⟨hsp, fun _ haddon => hkeep.resolve_left ?_⟩
      simp [haddon]
    · rintro ⟨hsp, hkeep⟩
      cases haddon : sp.addon with
      | false => exact ⟨hsp, .inl rfl⟩
      | true => exact ⟨hsp, .inr (hkeep h haddon)⟩

/-- What stays recorded is what is wanted. -/
theorem dropStale_fst : (dropStale m want addons l sps).1 = l.filter (named want ·) := by
  induction l generalizing sps with
  | nil => rfl
  | cons a l ih =>
    rw [dropStale, filter_cons]
    split
    · rw [← ih]
    split
    · exact ih
    · exact ih

/-- What is dropped are the families of what is recorded, not wanted and not listed. -/
theorem mem_dropStale_snd : sp ∈ (dropStale m want addons l sps).2 ↔ sp ∈ sps ∧
    ∀ a ∈ l, named want a = false → isListed m addons a = false → a ≠ [] → sp.addon = true →
      isFamily sp.logicalpath a = false := by
  induction l generalizing sps with
  | nil => simp [dropStale]
  | cons a l ih =>
    rw [dropStale]
    split
    · next hw => simp [ih, hw]
    split
    · next hl => simp [ih, hl]
    · next hw hl =>
      rw [ih, SearchPaths.mem_addonUnmount]
      simp only [Bool.not_eq_true] at hw hl
      simp only [mem_cons, forall_eq_or_imp, hw, hl, forall_true_left]
      tauto

/-- A search path that is dropped belongs to a pack that is recorded, not wanted and not listed. -/
theorem Inv.not_mem_dropStale (hD : Apart m D) (h : Inv m D s) (hsp : sp ∈ s.searchpaths)
    (hno : sp ∉ (dropStale m want addons s.automounted s.searchpaths).2) :
    sp.addon = true ∧ ∃ a ∈ s.automounted, fold a = fold sp.pack ∧ named want a = false ∧
      isListed m addons a = false := by
  simp only [mem_dropStale_snd, hsp, true_and, not_forall] at hno
  obtain ⟨a, ha, hw, hl, -, haddon, hfam⟩ := hno
  exact ⟨haddon, a, ha, (h.isFamily_iff hD hsp haddon (h.recorded a ha)).1 (by simpa using hfam), hw, hl⟩

/-- What stays of the search paths belongs to no pack that is recorded, not wanted and not
listed. -/
theorem Inv.of_mem_dropStale (hD : Apart m D) (h : Inv m D s)
    (hsp : sp ∈ (dropStale m want addons s.automounted s.searchpaths).2)
    (haddon : sp.addon = true) (hrec : named s.automounted sp.pack = true) :
    named want sp.pack = true ∨ isListed m addons sp.pack = true := by
  obtain ⟨hmem, hkeep⟩ := mem_dropStale_snd.1 hsp
  obtain ⟨a, ha, heq⟩ := named_iff.1 hrec
  have hne : a ≠ [] := by
    rintro rfl
    exact hD.nonempty (h.recorded _ ha)
  rw [← named_congr heq, ← isListed_congr heq]
  by_contra hno
  simp only [not_or, Bool.not_eq_true] at hno
  have hfam := (h.isFamily_iff hD hmem haddon (h.recorded a ha)).2 heq
  rw [hkeep a ha hno.1 hno.2 hne haddon] at hfam
  exact absurd hfam (by decide)

/-- The drop keeps the invariant. -/
theorem Inv.autoUnmountStale {automount autounmount : Bool} (hD : Apart m D) (h : Inv m D s) :
    Inv m D (autoUnmountStale m automount autounmount s) := by
  rw [Fs.autoUnmountStale]
  split
  · exact h
  simp only [dropStale_fst]
  have hold {sp : SearchPath} (hsp : sp ∈ (dropStale m s.automountwant s.addons s.automounted
      s.searchpaths).2) : sp ∈ s.searchpaths := (mem_dropStale_snd.1 hsp).1
  refine ⟨fun sp hsp => h.owned sp (hold hsp), fun a ha => h.recorded a (mem_of_mem_filter ha),
    ?_, ?_, ?_, h.listed⟩
  · intro sp hsp haddon hauto
    rcases h.auto sp (hold hsp) haddon hauto with hrec | hadopt
    · rcases h.of_mem_dropStale hD hsp haddon hrec with hw | hl
      · left
        obtain ⟨a, ha, heq⟩ := named_iff.1 hrec
        exact named_iff.2 ⟨a, List.mem_filter.2 ⟨ha, by rwa [named_congr heq]⟩, heq⟩
      · exact .inr (h.listed _ hl)
    · exact .inr hadopt
  · intro sp hsp haddon huser
    obtain ⟨hno, hyes⟩ := h.user sp (hold hsp) haddon huser
    refine ⟨?_, hyes⟩
    by_contra hrec
    rw [named_of_subset (filter_subset_self _) (by simpa using hrec)] at hno
    exact absurd hno (by decide)
  · intro a ha hcan
    obtain ⟨ha, hw⟩ := List.mem_filter.1 ha
    obtain ⟨sp, hsp, hname⟩ := List.any_eq_true.1 (h.mounted a ha hcan)
    refine List.any_eq_true.2 ⟨sp, ?_, hname⟩
    by_contra hno
    -- the directory of a wanted pack would be dropped with another pack
    obtain ⟨haddon, b, hb, heq, hwb, -⟩ := h.not_mem_dropStale hD hsp hno
    have hfam : isFamily sp.logicalpath a = true := by
      rw [isFamily_congr (sameName_iff.1 hname) rfl]
      exact isFamily_self a
    have hpack := (h.isFamily_iff hD hsp haddon (h.recorded a ha)).1 hfam
    rw [named_congr (heq.trans hpack.symm), hw] at hwb
    exact absurd hwb (by decide)

end Drop

/-! ## Commands -/

section Commands

variable {m : Machine} {D : Path → Prop} {s : FsState} {spec p arg : Path} {specs : List Path}
  {hdmodels : Bool}

/-- A pack that was mounted for a command keeps the invariant, if nothing is mounted when the pack
is recorded. -/
theorem Inv.userMount (h : Inv m D s) (hp : D p) {s' : SearchPaths}
    (hadds : SearchPaths.Adds p .user p s.searchpaths s') (hsettled : named s.automounted p = true → s' = s.searchpaths)
    {addons : List Path} (haddons : ∀ q, isListed m addons q = true → isListed m s.addons q = true ∨ fold p = fold q) :
    Inv m D { s with searchpaths := s', addons := addons, adopted := s.adopted ++ [p] } := by
  obtain ⟨l, rfl, hl⟩ := id hadds
  have hmem {sp : SearchPath} (hsp : sp ∈ s.searchpaths ++ l) :
      sp ∈ s.searchpaths ∨ (MountedFor p .user p sp ∧ named s.automounted p = false) := by
    rcases mem_append.1 hsp with hold | hnew
    · exact .inl hold
    · refine .inr ⟨hl sp hnew, ?_⟩
      by_contra hrec
      have hnil : l = [] := by simpa using hsettled (by simpa using hrec)
      simp [hnil] at hnew
  refine ⟨?_, h.recorded, ?_, ?_, fun a ha hcan => hadds.hasPath (h.mounted a ha hcan), ?_⟩
  · intro sp hsp haddon
    rcases hmem hsp with hold | ⟨hnew, -⟩
    · exact h.owned sp hold haddon
    · rw [hnew.pack]
      exact ⟨hp, hnew.family⟩
  · intro sp hsp haddon hauto
    rcases hmem hsp with hold | ⟨hnew, -⟩
    · exact (h.auto sp hold haddon hauto).imp id (named_of_subset (subset_append_left ..))
    · rw [hnew.owner] at hauto
      exact absurd hauto (by decide)
  · intro sp hsp haddon huser
    rcases hmem hsp with hold | ⟨hnew, hno⟩
    · exact (h.user sp hold haddon huser).imp id (named_of_subset (subset_append_left ..))
    · rw [hnew.pack]
      exact ⟨hno, named_of_mem (by simp)⟩
  · intro q hq
    rw [named_append, Bool.or_eq_true]
    exact (haddons q hq).imp (h.listed q) fun heq => named_iff.2 ⟨p, by simp, heq⟩

theorem Inv.hasPath_of_recorded (hD : Apart m D) (h : Inv m D s) (hp : D p)
    (hrec : named s.automounted p = true) (hcan : m.canOpen p = true) :
    s.searchpaths.hasPath p = true := by
  obtain ⟨a, ha, heq⟩ := named_iff.1 hrec
  rw [← hD.canOpen a p (h.recorded a ha) hp heq] at hcan
  have hpath := h.mounted a ha hcan
  simp only [SearchPaths.hasPath, sameName, heq] at hpath ⊢
  exact hpath

/-- For a recorded pack that is settled, there is nothing left to mount. -/
theorem Inv.addonMount_settled (hD : Apart m D) (h : Inv m D s) (hp : D p) (hr : m.resolve spec = some p)
    (hset : HdSettled m hdmodels s spec) (hrec : named s.automounted p = true) {pack : Path}
    {owner : Owner} : ((s.searchpaths.addonMountHD m hdmodels pack owner spec).addonMount m pack
      owner spec).2 = s.searchpaths := by
  have hhd : s.searchpaths.addonMountHD m hdmodels pack owner spec = s.searchpaths := by
    rw [SearchPaths.addonMountHD]
    split
    · rfl
    next hon =>
    cases hq : m.resolve (SearchPaths.hdSpec spec) with
    | none => rfl
    | some q =>
      rw [elim_some]
      split
      · next hfiles =>
        rw [addonMount_of_resolve hq]
        exact SearchPaths.mountPath_eq (hset p q hr hrec (by simpa using hon) hq hfiles)
      · rfl
  rw [hhd, addonMount_of_resolve hr]
  exact SearchPaths.mountPath_eq (h.hasPath_of_recorded hD hp hrec)

theorem useAddon_of_none (hok : SpecOk m D spec) (hr : m.resolve spec = none) :
    useAddon m hdmodels s spec = s := by
  simp [useAddon, addonMountHD_of_none hok hr, SearchPaths.addonMount, hr]

theorem Inv.useAddon (hD : Apart m D) (h : Inv m D s) (hok : SpecOk m D spec)
    (hset : HdSettled m hdmodels s spec) : Inv m D (useAddon m hdmodels s spec) := by
  cases hr : m.resolve spec with
  | none =>
    rw [useAddon_of_none hok hr]
    exact h
  | some p =>
    have hp := hok.pack p hr
    simp only [Fs.useAddon, packOf_of_resolve hr, hr, toList_some]
    exact h.userMount hp (addonMount_both hok hr).1
      (fun hrec => h.addonMount_settled hD hp hr hset hrec) (fun q hq => .inl hq)

theorem useAddon_searchpaths (hok : SpecOk m D spec) {path : Path} (h : s.searchpaths.hasPath path = true) :
    (useAddon m hdmodels s spec).searchpaths.hasPath path = true := by
  cases hr : m.resolve spec with
  | none => rwa [useAddon_of_none hok hr]
  | some p => exact (addonMount_both hok hr).1.hasPath h

/-- What is settled stays settled when a command mounts more. -/
theorem HdSettled.useAddon {spec' : Path} (hok : SpecOk m D spec)
    (h : HdSettled m hdmodels s spec') : HdSettled m hdmodels (Fs.useAddon m hdmodels s spec) spec' :=
  fun p q hp hrec hon hq hfiles hcan =>
    useAddon_searchpaths hok (h p q hp hrec hon hq hfiles hcan)

theorem Inv.foldl_useAddon (hD : Apart m D) (h : Inv m D s)
    (hok : ∀ spec ∈ specs, SpecOk m D spec ∧ HdSettled m hdmodels s spec) :
    Inv m D (specs.foldl (Fs.useAddon m hdmodels) s) := by
  induction specs generalizing s with
  | nil => exact h
  | cons spec specs ih =>
    obtain ⟨hspec, hset⟩ := hok spec (by simp)
    exact ih (h.useAddon hD hspec hset) fun spec' h' =>
      ⟨(hok spec' (by simp [h'])).1, (hok spec' (by simp [h'])).2.useAddon hspec⟩

theorem Inv.useAddons {lazyaddons : Bool} (hD : Apart m D) (h : Inv m D s)
    (hok : lazyaddons = true → ∀ spec ∈ specs, SpecOk m D spec ∧ HdSettled m hdmodels s spec) :
    Inv m D (useAddons m lazyaddons hdmodels specs s) := by
  rw [Fs.useAddons]
  split
  · exact h
  · next hon =>
    exact h.foldl_useAddon hD fun spec hspec =>
      hok (by simpa using hon) spec (mem_of_mem_filter hspec)

theorem isListed_saveAdd {q : Path} (h : isListed m (saveAdd s.addons arg) q = true) :
    isListed m s.addons q = true ∨ ∃ p, m.resolve arg = some p ∧ fold p = fold q := by
  obtain ⟨line, hline, hcomment, p, hp, heq⟩ := isListed_iff.1 h
  rw [saveAdd] at hline
  split at hline
  · exact .inl (isListed_iff.2 ⟨line, hline, hcomment, p, hp, heq⟩)
  · rcases mem_append.1 hline with hline | hline
    · exact .inl (isListed_iff.2 ⟨line, hline, hcomment, p, hp, heq⟩)
    · obtain rfl : line = arg := by simpa using hline
      exact .inr ⟨p, hp, heq⟩

theorem Inv.load (hD : Apart m D) (h : Inv m D s) (hok : SpecOk m D arg) :
    Inv m D (load m arg s) := by
  rw [Fs.load]
  cases hr : m.resolve arg with
  | none =>
    simp only [SearchPaths.addonMount, hr, elim_none]
    exact h
  | some p =>
    have hp := hok.pack p hr
    simp only [packOf_of_resolve hr, addonMount_of_resolve hr, toList_some]
    split
    · exact h
    · refine h.userMount hp SearchPaths.mountPath_adds (fun hrec =>
        SearchPaths.mountPath_eq (h.hasPath_of_recorded hD hp hrec)) fun q hq => ?_
      refine (isListed_saveAdd hq).imp id ?_
      rintro ⟨p', hp', heq⟩
      rwa [some.inj (hr.symm.trans hp')]

theorem Inv.unload (h : Inv m D s) : Inv m D (unload arg s) := by
  refine ⟨h.owned, h.recorded, h.auto, h.user, h.mounted, fun p hp => h.listed p ?_⟩
  obtain ⟨line, hline, hrest⟩ := isListed_iff.1 hp
  exact isListed_iff.2 ⟨line, mem_of_mem_filter hline, hrest⟩

theorem foldl_useAddon_addons {addons : List Path} :
    specs.foldl (useAddon m hdmodels) { s with addons := addons } =
      { specs.foldl (useAddon m hdmodels) s with addons := addons } := by
  induction specs generalizing s with
  | nil => rfl
  | cons spec specs ih => exact ih (s := useAddon m hdmodels s spec)

theorem foldl_useAddon_adopted : (specs.foldl (useAddon m hdmodels) s).adopted =
    s.adopted ++ specs.filterMap m.resolve := by
  induction specs generalizing s with
  | nil => simp
  | cons spec specs ih =>
    rw [foldl_cons, ih, useAddon, filterMap_cons]
    cases m.resolve spec <;> simp

/-- A rebuild establishes the invariant. -/
theorem inv_restart {base : List Path} (hD : Apart m D)
    (hok : ∀ line ∈ s.addons, SpecOk m D line) : Inv m D (restart m hdmodels base s) := by
  have hempty : Inv m D ⟨base.map fun p => ⟨p, false, [], .user⟩, [], [], [], []⟩ := by
    have hbase {sp : SearchPath} (hsp : sp ∈ base.map fun p => (⟨p, false, [], .user⟩ : SearchPath))
        (haddon : sp.addon = true) : False := by
      obtain ⟨p, -, rfl⟩ := List.mem_map.1 hsp
      exact absurd haddon Bool.false_ne_true
    exact ⟨fun sp hsp h => (hbase hsp h).elim, by simp, fun sp hsp h => (hbase hsp h).elim,
      fun sp hsp h => (hbase hsp h).elim, by simp, by simp [isListed]⟩
  have hlines : Inv m D ((s.addons.filter (!isComment ·)).foldl (Fs.useAddon m hdmodels)
      ⟨base.map fun p => ⟨p, false, [], .user⟩, [], [], [], []⟩) :=
    hempty.foldl_useAddon hD fun line hline =>
      ⟨hok line (mem_of_mem_filter hline), fun p q _ hrec => by simp [named] at hrec⟩
  have hstate : restart m hdmodels base s = { (s.addons.filter (!isComment ·)).foldl
      (Fs.useAddon m hdmodels) ⟨base.map fun p => ⟨p, false, [], .user⟩, [], [], [], []⟩ with
      addons := s.addons } :=
    foldl_useAddon_addons (s := ⟨base.map fun p => ⟨p, false, [], .user⟩, [], [], [], []⟩)
  rw [hstate]
  refine ⟨hlines.owned, hlines.recorded, hlines.auto, hlines.user, hlines.mounted, fun p hp => ?_⟩
  obtain ⟨line, hline, hcomment, q, hq, heq⟩ := isListed_iff.1 hp
  rw [foldl_useAddon_adopted]
  exact named_iff.2 ⟨q, mem_append_right _ (List.mem_filterMap.2
    ⟨line, List.mem_filter.2 ⟨hline, by simp [hcomment]⟩, hq⟩), heq⟩

end Commands

/-! ## Runs keep what is to hold -/

section Runs

variable {m : Machine} {D : Path → Prop} {s : FsState}

theorem inv_boot (addons : List Path) : Inv m D (boot m addons) := by
  refine ⟨by simp [boot], by simp [boot], by simp [boot], by simp [boot], by simp [boot],
    fun p hp => ?_⟩
  obtain ⟨line, hline, -, q, hq, heq⟩ := isListed_iff.1 hp
  exact named_iff.2 ⟨q, List.mem_filterMap.2 ⟨line, hline, hq⟩, heq⟩

theorem Inv.exec (hD : Apart m D) (h : Inv m D s) {op : Op} (hmeets : Meets m D s op) :
    Inv m D (exec m s op) := by
  cases op with
  | map automount autounmount hdmodels cached deps commit =>
    have hmap : Inv m D (Fs.autoMountForMap m automount hdmodels cached deps s) :=
      h.autoMountForMap hD hmeets.1
    rw [Fs.exec]
    cases commit with
    | false => exact hmap
    | true => exact hmap.autoUnmountStale hD
  | load arg => exact h.load hD hmeets
  | unload arg => exact h.unload
  | restart hdmodels base => exact inv_restart hD hmeets
  | useAddons lazyaddons hdmodels specs => exact h.useAddons hD hmeets

theorem Run.inv (hD : Apart m D) (h : Run m (Meets m D) s) : Inv m D s := by
  induction h with
  | boot addons => exact inv_boot addons
  | step op _ hmeets ih => exact ih.exec hD hmeets

theorem foldl_autoMountOne_fields {hdmodels cached : Bool} {specs : List Path} :
    (specs.foldl (autoMountOne m hdmodels cached) s).automountwant = s.automountwant ∧
      (specs.foldl (autoMountOne m hdmodels cached) s).addons = s.addons := by
  induction specs generalizing s with
  | nil => exact ⟨rfl, rfl⟩
  | cons spec specs ih => exact ih

/-- The drop of a committed load, when what is recorded as wanted is what the map wants. -/
theorem Inv.drops (hD : Apart m D) (h : Inv m D s) (hwD : ∀ w ∈ s.automountwant, D w) :
    Drops m s.automountwant s (Fs.autoUnmountStale m true true s) := by
  have hafter : Fs.autoUnmountStale m true true s = { s with
        automounted := (dropStale m s.automountwant s.addons s.automounted s.searchpaths).1
        searchpaths := (dropStale m s.automountwant s.addons s.automounted s.searchpaths).2 } := rfl
  rw [hafter]
  refine ⟨fun sp hsp hno => ?_, fun w hw sp hsp hfam => ?_, fun sp hsp haddon hauto => ?_⟩
  · obtain ⟨haddon, a, ha, heq, -, hl⟩ := h.not_mem_dropStale hD hsp hno
    refine ⟨?_, by rwa [← isListed_congr heq]⟩
    cases ho : sp.owner with
    | auto => rfl
    | user =>
      have := (h.user sp hsp haddon ho).1
      rw [named_iff.2 ⟨a, ha, heq⟩] at this
      exact absurd this (by decide)
  · by_contra hno
    obtain ⟨haddon, a, -, heq, hw', -⟩ := h.not_mem_dropStale hD hsp hno
    have hwp := (h.isFamily_iff hD hsp haddon (hwD w hw)).1 hfam
    rw [named_iff.2 ⟨w, hw, hwp.trans heq.symm⟩] at hw'
    exact absurd hw' (by decide)
  · rcases h.auto sp (mem_dropStale_snd.1 hsp).1 haddon hauto with hrec | hadopt
    · exact (h.of_mem_dropStale hD hsp haddon hrec).imp id (h.listed _)
    · exact .inr hadopt

end Runs

/-! ## Neighbours -/

/-- A machine where every directory opens under its own name and none has siblings. -/
def plainMachine : Machine where
  resolve p := if p = [] then none else some p
  canOpen _ := true
  hasFiles _ := false
  dataFiles _ := []
  cacheDir _ := none

/-- A map that needs one pack. -/
def mapOf (spec : String) : Op := .map true true false false (some [spec.toList]) true

/-- Two games whose names do not begin alike. -/
def twoPacks (p : Path) : Prop := p = "/tf".toList ∨ p = "/css".toList

theorem apart_twoPacks : Apart plainMachine twoPacks := by
  refine ⟨?_, by rintro (h | h) <;> exact absurd h (by decide), fun _ _ _ _ _ => rfl⟩
  rintro p q (rfl | rfl) (rfl | rfl) <;> decide

theorem specOk_twoPacks {spec : Path} (h : twoPacks spec) :
    SpecOk plainMachine twoPacks spec := by
  have hne : spec ≠ [] := by
    rintro rfl
    exact apart_twoPacks.nonempty h
  have hself : plainMachine.resolve spec = some spec := if_neg hne
  refine ⟨fun p hp => ?_, fun q hq => ⟨spec, hself, ?_⟩, fun p dir _ hdir => ?_⟩
  · rwa [← some.inj (hself.symm.trans hp)]
  · have hhd : plainMachine.resolve (SearchPaths.hdSpec spec) = some (spec ++ '_' :: ['h', 'd']) :=
      if_neg (by simp [SearchPaths.hdSpec])
    rw [← some.inj (hhd.symm.trans hq)]
    exact isFamily_append rfl
  · exact absurd hdir (by simp [plainMachine])

theorem meets_mapOf {s : FsState} {spec : String} (h : twoPacks spec.toList)
    (hroom : Room plainMachine false s [spec.toList]) :
    Meets plainMachine twoPacks s (mapOf spec) := by
  refine ⟨fun _ l hl => ?_, fun _ => ⟨rfl, rfl, [spec.toList], rfl, by simp [fsMaxautomount]⟩⟩
  obtain rfl := some.inj hl
  refine ⟨fun spec' h' => ?_, hroom⟩
  rw [mem_singleton.1 h']
  exact specOk_twoPacks h

end Fs

end FteQuake
