import Mathlib.Data.List.Infix
import Mathlib.Data.Nat.Notation
import Mathlib.Tactic.Common
import Mathlib.Tactic.IntervalCases

/-!
# Addon search paths

The search paths of `fs.c` as far as addon games go: `FS_Addon_Mount` and `FS_Addon_MountHD` put
the directory of a game, its packages and its sibling directories at the end of the list, and
`FS_Addon_Unmount` takes away what `FS_Addon_IsFamily` says belongs to a path. `IsFamily` is that
test as a relation of two paths; `isFamily_comparable` is why a search path has one owner among
directories that are apart from each other.

A path is a list of characters, each a byte of the C string.
-/

namespace FteQuake

namespace Fs

abbrev Path := List Char

/-- A path with its letters in lower case, as `Q_strcasecmp` compares them. -/
def fold (p : Path) : Path := p.map Char.toLower

/-- `!Q_strcasecmp`. -/
def sameName (p q : Path) : Bool := fold p = fold q

/-- What may follow the name of a game in the names of its family. -/
def isSep (c : Char) : Bool := c = '/' || c = '\\' || c = '_'

/-- `FS_Addon_IsFamily`, the test of the names. -/
def isFamily (logicalpath syspath : Path) : Bool :=
  fold (logicalpath.take syspath.length) = fold syspath &&
    (logicalpath[syspath.length]?).elim true isSep

/-- Who called for a mount. -/
inductive Owner
  | user
  | auto
  deriving DecidableEq, Repr

/-- `searchpath_t`. Records that the program does not have: the directory of the game it was mounted
for, and who called for the mount. -/
structure SearchPath where
  logicalpath : Path
  addon : Bool
  pack : Path
  owner : Owner
  deriving DecidableEq, Repr

/-- What the program finds on the machine it runs on. -/
structure Machine where
  /-- `FS_Addon_ResolveEx`. -/
  resolve : Path → Option Path
  /-- `VFSOS_OpenPath` gives a handle. -/
  canOpen : Path → Bool
  /-- A directory is there and not empty. -/
  hasFiles : Path → Bool
  /-- The packages `FS_AddDataFiles` finds in a directory, by the rest of their names. -/
  dataFiles : Path → List Path
  /-- `FS_Cache_PackDir`. -/
  cacheDir : Path → Option Path

/-- `com_searchpaths`. -/
abbrev SearchPaths := List SearchPath

/-! ## Mounting -/

namespace SearchPaths

/-- A search path of this name, if not of this case, is there. -/
def hasPath (s : SearchPaths) (path : Path) : Bool := s.any fun sp => sameName sp.logicalpath path

/-- `FS_Addon_IsMounted`. -/
def isMounted (s : SearchPaths) (syspath : Path) : Bool :=
  s.any fun sp => sp.addon && isFamily sp.logicalpath syspath

/-- `FS_AddSingleDataFile`. -/
def addDataFile (pack : Path) (owner : Owner) (s : SearchPaths) (path : Path) : SearchPaths :=
  if s.hasPath path then s else s ++ [⟨path, true, pack, owner⟩]

/-- `FS_AddPathHandle`, for an addon: its packages, then the directory. -/
def addPathHandle (m : Machine) (pack : Path) (owner : Owner) (s : SearchPaths) (path : Path) :
    SearchPaths :=
  ((m.dataFiles path).map fun name => path ++ '/' :: name).foldl (addDataFile pack owner) s ++
    [⟨path, true, pack, owner⟩]

/-- The sibling directory that downloads go to. -/
def downloads (path : Path) : Path := path ++ "_downloads".toList

/-- `FS_Addon_Mount`, when the name is resolved, and whether it returns true. -/
def mountPath (m : Machine) (pack : Path) (owner : Owner) (s : SearchPaths) (syspath : Path) :
    Bool × SearchPaths :=
  if s.hasPath syspath then (true, s)
  else if !m.canOpen syspath then (false, s)
  else
    let s := s.addPathHandle m pack owner syspath
    let dlpath := downloads syspath
    if m.hasFiles dlpath && !s.hasPath dlpath && m.canOpen dlpath then
      (true, s.addPathHandle m pack owner dlpath)
    else (true, s)

/-- `FS_Addon_Mount`. -/
def addonMount (m : Machine) (pack : Path) (owner : Owner) (s : SearchPaths) (arg : Path) :
    Bool × SearchPaths :=
  (m.resolve arg).elim (false, s) (s.mountPath m pack owner)

/-- The name of a game's high definition sibling. -/
def hdSpec (spec : Path) : Path := spec ++ "_hd".toList

/-- `FS_Addon_MountHD`. -/
def addonMountHD (m : Machine) (hdmodels : Bool) (pack : Path) (owner : Owner) (s : SearchPaths)
    (spec : Path) : SearchPaths :=
  if !hdmodels then s
  else (m.resolve (hdSpec spec)).elim s fun hdpath =>
    if m.hasFiles hdpath then (s.addonMount m pack owner (hdSpec spec)).2 else s

/-- `FS_Addon_Unmount`. -/
def addonUnmount (s : SearchPaths) (syspath : Path) : SearchPaths :=
  if syspath = [] then s
  else s.filter fun sp => !(sp.addon && isFamily sp.logicalpath syspath)

end SearchPaths

/-! ## Families of paths -/

theorem sameName_iff {p q : Path} : sameName p q = true ↔ fold p = fold q := by
  simp [sameName]

@[simp] theorem fold_append (p q : Path) : fold (p ++ q) = fold p ++ fold q := List.map_append ..

theorem isSep_toLower (c : Char) : isSep c.toLower = isSep c := by
  by_cases h : 'A' ≤ c ∧ c ≤ 'Z'
  · have hlo : 65 ≤ c.toNat := h.1
    have hhi : c.toNat ≤ 90 := h.2
    rw [← Char.ofNat_toNat c]
    generalize c.toNat = n at hlo hhi
    interval_cases n <;> rfl
  · have hc : c.toLower = c := dif_neg h
    rw [hc]

/-- The family of `p` are the paths that go on after it with a separator, or end there. -/
theorem isFamily_iff {l p : Path} :
    isFamily l p = true ↔ ∃ r, fold l = fold p ++ r ∧ r.head?.elim true isSep = true := by
  have hlen : (fold p).length = p.length := List.length_map ..
  have htake : fold (l.take p.length) = (fold l).take p.length := List.map_take ..
  have hget : ((fold l).drop p.length).head? = (l[p.length]?).map Char.toLower := by
    rw [List.head?_drop]
    exact List.getElem?_map ..
  have hsep : (l[p.length]?).elim true isSep = ((l[p.length]?).map Char.toLower).elim true isSep := by
    cases l[p.length]? with
    | none => rfl
    | some c => exact (isSep_toLower c).symm
  rw [isFamily, Bool.and_eq_true, decide_eq_true_iff, htake, hsep, ← hget]
  constructor
  · rintro ⟨hp, hr⟩
    exact ⟨_, by rw [← hp, List.take_append_drop], hr⟩
  · rintro ⟨r, hl, hr⟩
    rw [hl, ← hlen, List.take_left, List.drop_left]
    exact ⟨rfl, hr⟩

/-- Of two paths with a common member of their families, one is in the family of the other. -/
theorem isFamily_comparable {l p q : Path} (hp : isFamily l p = true) (hq : isFamily l q = true) :
    isFamily q p = true ∨ isFamily p q = true := by
  obtain ⟨r, hl, hr⟩ := isFamily_iff.1 hp
  obtain ⟨r', hl', hr'⟩ := isFamily_iff.1 hq
  rcases List.append_eq_append_iff.1 (hl.symm.trans hl') with ⟨a, hq, ha⟩ | ⟨a, hp, ha⟩
  · refine .inl (isFamily_iff.2 ⟨a, hq, ?_⟩)
    cases a with
    | nil => rfl
    | cons c a => simpa [ha] using hr
  · refine .inr (isFamily_iff.2 ⟨a, hp, ?_⟩)
    cases a with
    | nil => rfl
    | cons c a => simpa [ha] using hr'

theorem isFamily_self (p : Path) : isFamily p p = true :=
  isFamily_iff.2 ⟨[], by simp, rfl⟩

theorem isFamily_append {p r : Path} {c : Char} (hc : isSep c = true) :
    isFamily (p ++ c :: r) p = true := by
  refine isFamily_iff.2 ⟨fold (c :: r), fold_append .., ?_⟩
  simpa [fold, isSep_toLower] using hc

theorem isFamily_congr {l l' p p' : Path} (hl : fold l = fold l') (hp : fold p = fold p') :
    isFamily l p = isFamily l' p' := by
  rw [Bool.eq_iff_iff, isFamily_iff, isFamily_iff, hl, hp]

theorem isFamily_trans {l p q : Path} (hl : isFamily l p = true) (hp : isFamily p q = true) :
    isFamily l q = true := by
  obtain ⟨r, hl, hr⟩ := isFamily_iff.1 hl
  obtain ⟨r', hp, hr'⟩ := isFamily_iff.1 hp
  refine isFamily_iff.2 ⟨r' ++ r, by rw [hl, hp, List.append_assoc], ?_⟩
  cases r' with
  | nil => exact hr
  | cons c r' => exact hr'

/-! ## What a mount adds -/

/-- A search path that was mounted for `pack`, with a name of the family of `root`. -/
structure MountedFor (pack : Path) (owner : Owner) (root : Path) (sp : SearchPath) : Prop where
  addon : sp.addon = true
  pack : sp.pack = pack
  owner : sp.owner = owner
  family : isFamily sp.logicalpath root = true

namespace SearchPaths

variable {m : Machine} {pack root path : Path} {owner : Owner} {s s' s'' : SearchPaths}

/-- `s'` is `s` and search paths that were mounted for `pack`. -/
def Adds (pack : Path) (owner : Owner) (root : Path) (s s' : SearchPaths) : Prop :=
  ∃ l, s' = s ++ l ∧ ∀ sp ∈ l, MountedFor pack owner root sp

theorem Adds.refl : Adds pack owner root s s := ⟨[], by simp, by simp⟩

theorem Adds.trans (h : Adds pack owner root s s') (h' : Adds pack owner root s' s'') :
    Adds pack owner root s s'' := by
  obtain ⟨l, rfl, hl⟩ := h
  obtain ⟨l', rfl, hl'⟩ := h'
  refine ⟨l ++ l', by rw [List.append_assoc], fun sp hsp => ?_⟩
  rcases List.mem_append.1 hsp with hsp | hsp
  · exact hl sp hsp
  · exact hl' sp hsp

theorem Adds.mono {root' : Path} (h : Adds pack owner root s s')
    (hroot : isFamily root root' = true) : Adds pack owner root' s s' := by
  obtain ⟨l, rfl, hl⟩ := h
  exact ⟨l, rfl, fun sp hsp => ⟨(hl sp hsp).addon, (hl sp hsp).pack, (hl sp hsp).owner,
    isFamily_trans (hl sp hsp).family hroot⟩⟩

theorem Adds.hasPath (h : Adds pack owner root s s') (hp : s.hasPath path = true) :
    s'.hasPath path = true := by
  obtain ⟨l, rfl, -⟩ := h
  rw [SearchPaths.hasPath, List.any_append, Bool.or_eq_true]
  exact .inl hp

theorem addDataFile_adds (h : isFamily path root = true) :
    Adds pack owner root s (addDataFile pack owner s path) := by
  rw [addDataFile]
  split
  · exact .refl
  · exact ⟨_, rfl, by simpa using ⟨rfl, rfl, rfl, h⟩⟩

theorem foldl_addDataFile_adds {l : List Path} (h : ∀ path ∈ l, isFamily path root = true) :
    Adds pack owner root s (l.foldl (addDataFile pack owner) s) := by
  induction l generalizing s with
  | nil => exact .refl
  | cons path l ih =>
    exact (addDataFile_adds (h path (by simp))).trans (ih fun p hp => h p (by simp [hp]))

theorem addPathHandle_adds : Adds pack owner path s (s.addPathHandle m pack owner path) := by
  refine (foldl_addDataFile_adds ?_).trans ⟨_, rfl, ?_⟩
  · simp only [List.mem_map, forall_exists_index, and_imp, forall_apply_eq_imp_iff₂]
    exact fun name _ => isFamily_append rfl
  · simpa using ⟨rfl, rfl, rfl, isFamily_self path⟩

theorem addPathHandle_hasPath : (s.addPathHandle m pack owner path).hasPath path = true := by
  simp [addPathHandle, hasPath, sameName]

theorem isFamily_downloads : isFamily (downloads path) path = true :=
  isFamily_append (c := '_') rfl

theorem mountPath_adds : Adds pack owner path s (s.mountPath m pack owner path).2 := by
  rw [mountPath]
  split
  · exact .refl
  split
  · exact .refl
  simp only
  split
  · exact addPathHandle_adds.trans (addPathHandle_adds.mono isFamily_downloads)
  · exact addPathHandle_adds

/-- After a mount the directory is there, if it can be opened. -/
theorem mountPath_hasPath (h : m.canOpen path = true) :
    (s.mountPath m pack owner path).2.hasPath path = true := by
  rw [mountPath]
  split
  · assumption
  rw [if_neg (by simp [h])]
  simp only
  split
  · exact addPathHandle_adds.hasPath addPathHandle_hasPath
  · exact addPathHandle_hasPath

/-- A mount of what is there, or cannot be opened, does nothing. -/
theorem mountPath_eq (h : m.canOpen path = true → s.hasPath path = true) :
    (s.mountPath m pack owner path).2 = s := by
  rw [mountPath]
  split
  · rfl
  next hno =>
  rw [if_pos (by simpa using fun hopen => hno (h hopen))]

end SearchPaths

end Fs

end FteQuake
