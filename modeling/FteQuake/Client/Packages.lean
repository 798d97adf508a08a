import FteQuake.Lib.Numerals
import FteQuake.Common.Infobuf
import FteQuake.Lib.OptionLoop
import Mathlib.Data.Fintype.Card
import Mathlib.Algebra.Order.BigOperators.Group.Finset
import Mathlib.Logic.Relation

/-!
# Marking packages

`PM_MarkPackage` and `PM_UnmarkPackage` of `m_download.c`, over any finite set of packages. A walk over pointers that does
not end, and an access through `NULL`, are `none`; so is a recursion that has used up its depth.

The marks stay consistent (`markPackage_consistent`) under conditions on the packages and on each call: the recursion need
not end for packages that need each other and exclude each other, a version that replaces another one is taken to have its
dependencies, and a package that takes the place of its root in the list keeps its old link.
-/

namespace FteQuake

open List Option Bool Function
open Finset (univ)
open OptionLoop (rule rule_forall run total)
open Finset (card_lt_card mem_univ)

namespace Packages

/-! ## Packages -/

inductive DepType
  | conflict
  | replace
  | fileconflict
  | require
  | recommend
  | suggest
  | needfeature
  | map
  | source
  | extractname
  | file
  | cachefile
  deriving DecidableEq

/-- `struct packagedep_s`. -/
structure Dep where
  dtype : DepType
  name : List QByte

/-- What of a package the calls read and do not change. -/
structure Package where
  name : List QByte
  version : List QByte
  arch : Option (List QByte)
  gamedir : List QByte
  fsroot : ℕ
  deps : List Dep
  /-- `DPF_ENGINE` -/
  engine : Bool
  /-- `DPF_TRUSTED` -/
  trusted : Bool

/-- The flags of `DPF_MARKED`. -/
structure Marks where
  user : Bool
  auto : Bool
  deriving DecidableEq

namespace Marks

def none : Marks := ⟨false, false⟩
def automarked : Marks := ⟨false, true⟩
def usermarked : Marks := ⟨true, false⟩
def marked : Marks := ⟨true, true⟩

/-- `flags & DPF_MARKED`. -/
def any (m : Marks) : Bool := m.user || m.auto

/-- `flags & markflag`. -/
def has (m markflag : Marks) : Bool := (m.user && markflag.user) || (m.auto && markflag.auto)

/-- `flags | markflag`. -/
def set (m markflag : Marks) : Marks := ⟨m.user || markflag.user, m.auto || markflag.auto⟩

/-- `flags & ~markflag`. -/
def clear (m markflag : Marks) : Marks := ⟨m.user && !markflag.user, m.auto && !markflag.auto⟩

end Marks

/-- The address that a package is linked from. -/
inductive Link (ι : Type)
  | available
  | next (p : ι)
  | alternative (p : ι)
  deriving DecidableEq

/-- The packages, and what the calls ask of the rest of the program; nothing of it changes with the marks. -/
structure Env (ι : Type) where
  package : ι → Package
  /-- `pkg_updating` -/
  updating : Bool
  /-- `THISARCH` -/
  thisArch : List QByte
  /-- `PM_SignatureOkay` -/
  signatureOkay : ι → Bool
  /-- `PM_CheckFile` -/
  checkFile : List QByte → ℕ → Bool
  /-- `PM_CheckPackageFeatures` -/
  checkPackageFeatures : ι → Bool

/-- What the calls change. -/
structure State (ι : Type) where
  availablepackages : Option ι
  next : ι → Option ι
  alternative : ι → Option ι
  link : ι → Link ι
  marks : ι → Marks

variable {ι : Type} [Fintype ι] [DecidableEq ι]

/-! ## The list -/

/-- The packages along `next`, where a walk over more of them than there are does not end. -/
def walk (next : ι → Option ι) : ℕ → Option ι → Option (List ι)
  | _, none => some []
  | 0, some _ => none
  | n + 1, some p => (walk next n (next p)).map (p :: ·)

namespace State

/-- The packages of `availablepackages`. -/
def list (s : State ι) : Option (List ι) := walk s.next (Fintype.card ι) s.availablepackages

/-- The alternatives of a package. -/
def alternatives (s : State ι) (p : ι) : Option (List ι) := walk s.next (Fintype.card ι) (s.alternative p)

def read (s : State ι) : Link ι → Option ι
  | .available => s.availablepackages
  | .next p => s.next p
  | .alternative p => s.alternative p

def write (s : State ι) (l : Link ι) (v : Option ι) : State ι :=
  match l with
  | .available => { s with availablepackages := v }
  | .next p => { s with next := Function.update s.next p v }
  | .alternative p => { s with alternative := Function.update s.alternative p v }

/-- `if (p) p->link = l`. -/
def relink (s : State ι) (p : Option ι) (l : Link ι) : State ι :=
  match p with
  | none => s
  | some p => { s with link := Function.update s.link p l }

/-- What `PM_MarkPackage` does to put a package in the place of its root. -/
def swap (s : State ι) (package root : ι) : State ι :=
  let s := s.write (s.link package) (s.next package)
  let s := s.relink (s.next package) (s.link package)
  let s := s.write (s.link root) (some package)
  let s := s.write (.next package) (s.next root)
  let s := s.relink (s.next package) (.next package)
  let s := s.write (.next root) (s.alternative package)
  let s := s.relink (s.next root) (.next root)
  let s := s.relink (some root) (.alternative package)
  let s := s.write (s.link root) (some root)
  { s with marks := Function.update s.marks root .none }

end State

/-- The search of `PM_RootForAlt`. -/
def findRoot (s : State ι) (package : ι) : List ι → Option ι
  | [] => none
  | p :: ps =>
    if p = package then some p
    else (s.alternatives p).bind fun as => if package ∈ as then some p else findRoot s package ps

/-- `PM_RootForAlt`. -/
def rootForAlt (s : State ι) (package : ι) : Option ι := s.list.bind (findRoot s package)

/-! ## Names -/

/-- `strchr`, as what is in front of the character and what is from it on. -/
def strchr (c : QByte) (s : List QByte) : Option ℕ := if c ∈ s then some (s.idxOf c) else none

/-- A name as a dependency gives it: the package, and perhaps an architecture and a version with its sign. -/
structure Wanted where
  name : List QByte
  arch : Option (List QByte)
  version : Option (List QByte)

/-- How `PM_FindPackage` and `PM_MarkedPackage` take a name apart: `:` is 0x3a, `=` 0x3d, `>` 0x3e and `<` 0x3c. -/
def wanted (s : List QByte) : Wanted :=
  let arch := strchr 0x3a s
  let ver := (strchr 0x3d s).or ((strchr 0x3e s).or (strchr 0x3c s))
  let upTo := fun (stop : Option ℕ) (s : List QByte) => match stop with
    | none => s
    | some i => s.take i
  { name := upTo arch (upTo ver s)
    arch := arch.map fun a => (if ver.all (· < a) then s else upTo ver s).drop (a + 1)
    version := ver.map s.drop }

/-- `strcmp(a, b) > 0`. -/
def strcmpGt (a b : List QByte) : Bool := decide (b.map BitVec.toNat < a.map BitVec.toNat)

def toLower (c : QByte) : QByte := if 0x41 ≤ c ∧ c ≤ 0x5a then c + 0x20 else c

/-- `!Q_strcasecmp`. -/
def strcaseeq (a b : List QByte) : Bool := a.map toLower = b.map toLower

namespace Env

variable (env : Env ι)

def name (p : ι) : List QByte := (env.package p).name
def deps (p : ι) : List Dep := (env.package p).deps

/-- A package is for an architecture that is not ours. -/
def foreign (p : ι) : Bool :=
  match (env.package p).arch with
  | none => false
  | some a => !a.isEmpty && !strcaseeq a env.thisArch

/-- The comparisons of `PM_FindExactPackage`. -/
def fits (w : Wanted) (p : ι) : Bool :=
  let arch := w.arch.filter (!·.isEmpty)
  let version := w.version.filter (!·.isEmpty)
  decide (env.name p = w.name) &&
    (match arch with
    | some a => decide ((env.package p).arch = some a)
    | none => !env.foreign p) &&
    match version with
    | none => true
    | some [] => true
    | some (c :: v) =>
      (c ≠ 0x3d || decide ((env.package p).version = v)) &&
        (c ≠ 0x3e || strcmpGt (env.package p).version v) &&
        (c ≠ 0x3c || strcmpGt v (env.package p).version)

/-- The newer one of a package that was found, if any, and another one, if a test takes it. -/
def newer (ok : ι → Bool) (r : Option ι) (p : ι) : Option ι :=
  if ok p then
    match r with
    | none => some p
    | some q => if strcmpGt (env.package p).version (env.package q).version then some p else some q
  else r

/-- The newest package of a list that a test takes. -/
def newest (ok : ι → Bool) (l : List ι) : Option ι := l.foldl (env.newer ok) none

/-- `PM_FindPackage`. -/
def findPackage (l : List ι) (name : List QByte) : Option ι := env.newest (env.fits (wanted name)) l

/-- `PM_MarkedPackage`, for a flag that is not 0. -/
def markedPackage (l : List ι) (marks : ι → Marks) (name : List QByte) (markflag : Marks) : Option ι :=
  env.newest (fun p => env.fits (wanted name) p && (marks p).has markflag) l

/-- `PM_HasDependant`. -/
def hasDependant (l : List ι) (marks : ι → Marks) (package : ι) (markflag : Marks) : Bool :=
  l.any fun o => (marks o).has markflag && (env.deps o).any fun dep =>
    (dep.dtype = .require || dep.dtype = .recommend || dep.dtype = .suggest) && dep.name = env.name package

/-! ## Unmarking -/

/-- A package that requires the name is unmarked. -/
def unmarkDependant (rec : (ι → Marks) → ι → Marks → Option (ι → Marks)) (name : List QByte) (marks : ι → Marks)
    (o : ι) : Option (ι → Marks) :=
  (env.deps o).foldlM (fun marks dep =>
    if dep.dtype = .require ∧ dep.name = name then rec marks o .marked else some marks) marks

/-- A package that was marked for a dependency is unmarked when nothing depends on it. -/
def unmarkUnused (rec : (ι → Marks) → ι → Marks → Option (ι → Marks)) (l : List ι) (marks : ι → Marks) (dep : Dep) :
    Option (ι → Marks) :=
  if dep.dtype = .require ∨ dep.dtype = .recommend then
    match env.markedPackage l marks dep.name .automarked with
    | none => some marks
    | some d =>
      if !(marks d).user && !env.hasDependant l marks d .marked then rec marks d .automarked else some marks
  else some marks

/-- `PM_UnmarkPackage`, for so many levels. -/
def unmark (l : List ι) : ℕ → (ι → Marks) → ι → Marks → Option (ι → Marks)
  | 0, _, _, _ => none
  | fuel + 1, marks, package, markflag =>
    if env.updating then some marks
    else if !(marks package).has markflag then some marks
    else
      let marks := Function.update marks package ((marks package).clear markflag)
      (if (marks package).any then some marks
      else l.foldlM (env.unmarkDependant (unmark l fuel) (env.name package)) marks).bind fun marks =>
        if (marks package).user then some marks
        else (env.deps package).foldlM (env.unmarkUnused (unmark l fuel) l) marks

/-- `PM_UnmarkPackage`: each level clears a flag. -/
def unmarkPackage (l : List ι) (marks : ι → Marks) (package : ι) (markflag : Marks) : Option (ι → Marks) :=
  env.unmark l (2 * Fintype.card ι + 1) marks package markflag

/-! ## Marking -/

/-- A file that is in the way of a package. -/
def fileConflict (p : ι) : Bool :=
  (env.deps p).any fun dep => dep.dtype = .fileconflict &&
    env.checkFile (if (env.package p).gamedir = [] then dep.name else (env.package p).gamedir ++ 0x2f :: dep.name)
      (env.package p).fsroot

/-- Two packages have a file of one name. -/
def sharesFile (p o : ι) : Bool :=
  (env.deps p).any fun dep => dep.dtype = .file && (env.deps o).any fun dep2 => dep2.dtype = .file && dep.name = dep2.name

/-- A marked package that cannot be together with the new one; the flag says that another version was replaced. -/
def exclude (l : List ι) (package : ι) (r : (ι → Marks) × Bool) (o : ι) : Option ((ι → Marks) × Bool) :=
  if o = package then some r
  else if (r.1 o).any then
    if env.name o = env.name package then some (Function.update r.1 o .none, true)
    else if (env.package package).engine && (env.package o).engine then
      (env.unmarkPackage l r.1 o .marked).map (·, r.2)
    else if env.sharesFile package o then (env.unmarkPackage l r.1 o .marked).map (·, r.2)
    else some r
  else some r

/-- The packages of a name are unmarked until none is marked, in so many rounds. -/
def unmarkAll (l : List ι) (name : List QByte) : ℕ → (ι → Marks) → Option (ι → Marks)
  | 0, _ => none
  | n + 1, marks =>
    match env.markedPackage l marks name .marked with
    | none => some marks
    | some d => (env.unmarkPackage l marks d .marked).bind (unmarkAll l name n)

/-- A dependency of the new package. -/
def satisfy (rec : State ι → ι → Option (State ι × Bool)) (s : State ι) (dep : Dep) : Option (State ι) :=
  s.list.bind fun l =>
    if dep.dtype = .require ∨ dep.dtype = .recommend then
      match env.markedPackage l s.marks dep.name .marked with
      | some _ => some s
      | none =>
        match env.findPackage l dep.name with
        | none => some s
        | some d =>
          if dep.dtype = .recommend && !env.checkPackageFeatures d then some s else (rec s d).map Prod.fst
    else if dep.dtype = .conflict ∨ dep.dtype = .replace then
      (env.unmarkAll l dep.name (Fintype.card ι + 1) s.marks).map fun marks => { s with marks := marks }
    else some s

/-- A package that conflicts with the name is unmarked. -/
def unmarkConflicting (l : List ι) (name : List QByte) (marks : ι → Marks) (o : ι) : Option (ι → Marks) :=
  (env.deps o).foldlM (fun marks dep =>
    if (dep.dtype = .conflict ∨ dep.dtype = .replace) ∧ dep.name = name then env.unmarkPackage l marks o .marked
    else some marks) marks

/-- `PM_MarkPackage`, from where the package is in the list on. -/
def markListed (rec : State ι → ι → Option (State ι × Bool)) (s : State ι) (package : ι) (markflag : Marks) :
    Option (State ι × Bool) :=
  s.list.bind fun l =>
    let marks := Function.update s.marks package ((s.marks package).set markflag)
    (l.foldlM (env.exclude l package) (marks, false)).bind fun r =>
      let s := { s with marks := r.1 }
      if r.2 then some (s, true)
      else
        ((env.deps package).foldlM (env.satisfy rec) s).bind fun s =>
          s.list.bind fun l =>
            (l.foldlM (env.unmarkConflicting l (env.name package)) s.marks).map fun marks =>
              ({ s with marks := marks }, true)

/-- `PM_MarkPackage`, for so many levels. -/
def markPackage : ℕ → State ι → ι → Marks → Option (State ι × Bool)
  | 0, _, _, _ => none
  | fuel + 1, s, package, markflag =>
    if env.updating then some (s, false)
    else if (s.marks package).any then
      some ({ s with marks := Function.update s.marks package ((s.marks package).set markflag) }, true)
    else if !env.signatureOkay package then some (s, false)
    else if env.fileConflict package then some (s, false)
    else
      (rootForAlt s package).bind fun root =>
        let rec' := fun s d => markPackage fuel s d .automarked
        if root = package then env.markListed rec' s package markflag
        else if (env.package root).trusted && !(env.package package).trusted then some (s, false)
        else env.markListed rec' (s.swap package root) package markflag

end Env

/-! ## Names without signs -/

/-- A name without an architecture and a version. -/
def Plain (s : List QByte) : Prop := ∀ c ∈ s, c ≠ 0x3a ∧ c ≠ 0x3d ∧ c ≠ 0x3e ∧ c ≠ 0x3c

theorem wanted_of_plain {s : List QByte} (hs : Plain s) : wanted s = ⟨s, none, none⟩ := by
  have hnone (c : QByte) (hc : ∀ d ∈ s, d ≠ c) : strchr c s = none := if_neg fun hmem => hc c hmem rfl
  unfold wanted
  rw [hnone 0x3a fun d hd => (hs d hd).1, hnone 0x3d fun d hd => (hs d hd).2.1, hnone 0x3e fun d hd => (hs d hd).2.2.1,
    hnone 0x3c fun d hd => (hs d hd).2.2.2]
  rfl

namespace Env

variable {env : Env ι}

omit [Fintype ι] [DecidableEq ι] in
theorem fits_iff {n : List QByte} (hn : Plain n) {p : ι} :
    env.fits (wanted n) p = true ↔ env.name p = n ∧ env.foreign p = false := by
  rw [wanted_of_plain hn]
  simp only [fits, filter_none, Bool.and_true, Bool.and_eq_true, decide_eq_true_eq, Bool.not_eq_true']

omit [Fintype ι] [DecidableEq ι] in
theorem newer_of_ok {ok : ι → Bool} {p : ι} (hp : ok p = true) (r : Option ι) :
    ∃ d, env.newer ok r p = some d ∧ (d = p ∨ r = some d) := by
  unfold newer
  rw [if_pos hp]
  cases r with
  | none => exact ⟨p, rfl, .inl rfl⟩
  | some q =>
    by_cases hgt : strcmpGt (env.package p).version (env.package q).version = true
    · exact ⟨p, if_pos hgt, .inl rfl⟩
    · exact ⟨q, if_neg hgt, .inr rfl⟩

omit [Fintype ι] [DecidableEq ι] in
theorem newer_of_not {ok : ι → Bool} {p : ι} (hp : ¬ok p = true) (r : Option ι) : env.newer ok r p = r := if_neg hp

omit [Fintype ι] [DecidableEq ι] in
/-- The fold from what was found before. -/
theorem newest_from {ok : ι → Bool} (l : List ι) (r : Option ι) :
    (l.foldl (env.newer ok) r = none ↔ r = none ∧ ∀ p ∈ l, ¬ok p = true) ∧
      ∀ d, l.foldl (env.newer ok) r = some d → (d ∈ l ∧ ok d = true) ∨ r = some d := by
  induction l generalizing r with
  | nil => exact ⟨⟨fun h => ⟨h, nofun⟩, And.left⟩, fun d h => .inr h⟩
  | cons p l ih =>
    rw [foldl_cons, forall_mem_cons]
    obtain ⟨hnone, hsome⟩ := ih (env.newer ok r p)
    by_cases hp : ok p = true
    · obtain ⟨d, hd, hdp⟩ := newer_of_ok hp r
      rw [hd] at hnone hsome ⊢
      refine ⟨hnone.trans ⟨fun h => absurd h.1 nofun, fun h => absurd hp h.2.1⟩, fun e he => ?_⟩
      rcases hsome e he with ⟨hmem, hok⟩ | heq
      · exact .inl ⟨.tail _ hmem, hok⟩
      · cases heq
        rcases hdp with rfl | hr
        · exact .inl ⟨.head _, hp⟩
        · exact .inr hr
    · rw [newer_of_not hp] at hnone hsome ⊢
      refine ⟨hnone.trans ⟨fun h => ⟨h.1, hp, h.2⟩, fun h => ⟨h.1, h.2.2⟩⟩, fun e he => ?_⟩
      exact (hsome e he).imp (fun h => ⟨.tail _ h.1, h.2⟩) id

omit [Fintype ι] [DecidableEq ι] in
theorem newest_some {ok : ι → Bool} {l : List ι} {d : ι} (h : env.newest ok l = some d) : d ∈ l ∧ ok d = true :=
  ((newest_from l none).2 d h).resolve_right nofun

omit [Fintype ι] [DecidableEq ι] in
theorem newest_none {ok : ι → Bool} {l : List ι} (h : env.newest ok l = none) {p : ι} (hp : p ∈ l) : ¬ok p = true :=
  ((newest_from l none).1.mp h).2 p hp

/-! ## What unmarking clears -/

/-- The package has a dependency of the kind on the name. -/
def Requires (env : Env ι) (p : ι) (n : List QByte) : Prop := ∃ dep ∈ env.deps p, dep.dtype = .require ∧ dep.name = n

/-- No mark is new, and where the last mark of a package is gone, those of the packages that require its name are too. -/
structure Cleared (env : Env ι) (l : List ι) (m m' : ι → Marks) : Prop where
  user : ∀ p, (m' p).user = true → (m p).user = true
  auto : ∀ p, (m' p).auto = true → (m p).auto = true
  dependants : ∀ x, (m x).any = true → ¬(m' x).any = true → ∀ o ∈ l, env.Requires o (env.name x) → ¬(m' o).any = true

end Env

theorem Marks.has_marked (m : Marks) : m.has .marked = m.any := by
  rw [has, any, marked, Bool.and_true, Bool.and_true]

theorem Marks.any_clear_marked (m : Marks) : (m.clear .marked).any = false := by
  simp [any, clear, marked]

theorem Marks.any_set {m f : Marks} (hf : f.any = true) : (m.set f).any = true := by
  rw [any, or_eq_true] at hf
  rw [any, set, or_eq_true, or_eq_true, or_eq_true]
  exact hf.imp .inr .inr

theorem Marks.any_set_of_any {m : Marks} (hm : m.any = true) (f : Marks) : (m.set f).any = true := by
  rw [any, or_eq_true] at hm
  rw [any, set, or_eq_true, or_eq_true, or_eq_true]
  exact hm.imp .inl .inl

namespace Env.Cleared

variable {env : Env ι} {l : List ι} {m m' m'' : ι → Marks} {p : ι}

omit [Fintype ι] [DecidableEq ι]

theorem any (h : Cleared env l m m') (hp : (m' p).any = true) : (m p).any = true := by
  rw [Marks.any, or_eq_true] at hp ⊢
  exact hp.imp (h.user p) (h.auto p)

theorem refl (env : Env ι) (l : List ι) (m : ι → Marks) : Cleared env l m m :=
  ⟨fun _ => id, fun _ => id, fun _ h h' => absurd h h'⟩

theorem trans (h₁ : Cleared env l m m') (h₂ : Cleared env l m' m'') : Cleared env l m m'' := by
  refine ⟨fun p hp => h₁.user p (h₂.user p hp), fun p hp => h₁.auto p (h₂.auto p hp), fun x hx hx' o ho hreq ho' => ?_⟩
  by_cases hmid : (m' x).any = true
  · exact h₂.dependants x hmid hx' o ho hreq ho'
  · exact h₁.dependants x hx hmid o ho hreq (h₂.any ho')

end Env.Cleared

section Unmark

variable {env : Env ι} {l : List ι} {m m' : ι → Marks} {p : ι} {f : Marks}

namespace Env

omit [Fintype ι] [DecidableEq ι] in
theorem unmarkDependant_spec {rec : (ι → Marks) → ι → Marks → Option (ι → Marks)} {name : List QByte}
    (hrec : ∀ m p m', rec m p .marked = some m' → Cleared env l m m' ∧ ¬(m' p).any = true) {o : ι}
    (h : env.unmarkDependant rec name m o = some m') :
    Cleared env l m m' ∧ (env.Requires o name → ¬(m' o).any = true) := by
  have hstep : ∀ (m : ι → Marks), ∀ dep ∈ env.deps o, ∀ m',
      (if dep.dtype = .require ∧ dep.name = name then rec m o .marked else some m) = some m' →
      Cleared env l m m' ∧ (dep.dtype = .require ∧ dep.name = name → ¬(m' o).any = true) := by
    intro m dep _ m' h
    split at h
    · obtain ⟨hcleared, ho⟩ := hrec m o m' h
      exact ⟨hcleared, fun _ => ho⟩
    · cases h
      exact ⟨.refl env l m, fun hdep => absurd hdep (by assumption)⟩
  refine ⟨rule (.refl env l) .trans (fun m dep hdep m' h => (hstep m dep hdep m' h).1) h, ?_⟩
  rintro ⟨dep, hdep, hname⟩
  exact rule_forall (R := Cleared env l) (.refl env l) .trans
    (fun hc hq hname ho => hq hname (hc.any ho)) hstep h dep hdep hname

omit [Fintype ι] in
/-- What `PM_UnmarkPackage` does. -/
theorem unmark_spec {fuel : ℕ} (h : env.unmark l fuel m p f = some m') : Cleared env l m m' ∧
    (env.updating = false → f = .marked → ¬(m' p).any = true) := by
  induction fuel generalizing m p f m' with
  | zero => cases h
  | succ fuel ih =>
    rw [unmark] at h
    by_cases hup : env.updating = true
    · rw [if_pos hup] at h
      cases h
      exact ⟨.refl env l m, fun hnot => absurd hup (by rw [hnot]; exact false_ne_true)⟩
    rw [if_neg hup] at h
    by_cases hhas : (m p).has f = true
    swap
    · rw [if_pos (by rw [eq_false_of_ne_true hhas]; rfl)] at h
      cases h
      exact ⟨.refl env l m, fun _ hf hany => hhas (by rw [hf, Marks.has_marked, hany])⟩
    rw [if_neg (by rw [hhas]; exact false_ne_true)] at h
    dsimp only at h
    generalize hm₁ : update m p ((m p).clear f) = m₁ at h
    obtain ⟨m₂, hloop, h⟩ := bind_eq_some_iff.mp h
    have hrec : ∀ m p m', env.unmark l fuel m p .marked = some m' → Cleared env l m m' ∧ ¬(m' p).any = true :=
      fun m p m' h => ⟨(ih h).1, (ih h).2 (eq_false_of_ne_true hup) rfl⟩
    -- the packages that require it
    have hfirst : Cleared env l m₁ m₂ ∧
        (¬(m₁ p).any = true → ∀ o ∈ l, env.Requires o (env.name p) → ¬(m₂ o).any = true) := by
      by_cases hany : (m₁ p).any = true
      · rw [if_pos hany] at hloop
        cases hloop
        exact ⟨.refl env l _, fun hnot => absurd hany hnot⟩
      · rw [if_neg hany] at hloop
        refine ⟨rule (.refl env l) .trans
          (fun _ _ _ _ h => (unmarkDependant_spec hrec h).1) hloop, fun _ => ?_⟩
        exact rule_forall (R := Cleared env l) (Q := fun o m => env.Requires o (env.name p) → ¬(m o).any = true)
          (.refl env l) .trans (fun hc hq hreq ho => hq hreq (hc.any ho))
          (fun _ _ _ _ h => unmarkDependant_spec hrec h) hloop
    -- the packages that were marked for it
    have hsecond : Cleared env l m₂ m' := by
      by_cases huser : (m₂ p).user = true
      · rw [if_pos huser] at h
        cases h
        exact .refl env l _
      · rw [if_neg huser] at h
        refine rule (.refl env l) .trans (fun m dep _ m' h => ?_) h
        unfold unmarkUnused at h
        split at h
        · split at h
          · cases h
            exact .refl env l _
          · split at h
            · exact (ih h).1
            · cases h
              exact .refl env l _
        · cases h
          exact .refl env l _
    have htail := hfirst.1.trans hsecond
    have hother (q : ι) (hq : q ≠ p) : m₁ q = m q := by rw [← hm₁, update_of_ne hq]
    have hself : m₁ p = (m p).clear f := by rw [← hm₁, update_self]
    refine ⟨⟨fun q hq => ?_, fun q hq => ?_, fun x hx hx' o ho hreq => ?_⟩, fun _ hf hany => ?_⟩
    · have hq₁ := htail.user q hq
      by_cases hqp : q = p
      · subst hqp
        rw [hself, Marks.clear, Bool.and_eq_true] at hq₁
        exact hq₁.1
      · rwa [hother q hqp] at hq₁
    · have hq₁ := htail.auto q hq
      by_cases hqp : q = p
      · subst hqp
        rw [hself, Marks.clear, Bool.and_eq_true] at hq₁
        exact hq₁.1
      · rwa [hother q hqp] at hq₁
    · by_cases hx₁ : (m₁ x).any = true
      · exact htail.dependants x hx₁ hx' o ho hreq
      · have hxp : x = p := by
          by_contra hne
          exact hx₁ (by rw [hother x hne, hx])
        subst hxp
        exact fun ho' => hfirst.2 hx₁ o ho hreq (hsecond.any ho')
    · have := htail.any hany
      rw [hself, hf, Marks.any_clear_marked] at this
      cases this

end Env

/-- How many flags are set. -/
def flagCount (m : ι → Marks) : ℕ := ∑ p, ((m p).user.toNat + (m p).auto.toNat)

omit [DecidableEq ι] in
theorem flagCount_le (m : ι → Marks) : flagCount m ≤ 2 * Fintype.card ι := by
  have hone (p : ι) : (m p).user.toNat + (m p).auto.toNat ≤ 2 := Nat.add_le_add (toNat_le _) (toNat_le _)
  calc flagCount m ≤ ∑ _p : ι, 2 := Finset.sum_le_sum fun p _ => hone p
    _ = 2 * Fintype.card ι := by rw [Finset.sum_const, Finset.card_univ, Nat.nsmul_eq_mul, Nat.mul_comm]

omit [DecidableEq ι] in
theorem Env.Cleared.flagCount_le (h : Env.Cleared env l m m') : flagCount m' ≤ flagCount m :=
  Finset.sum_le_sum fun p _ => Nat.add_le_add (toNat_le_toNat (h.user p)) (toNat_le_toNat (h.auto p))

theorem flagCount_clear (hhas : (m p).has f = true) :
    flagCount (Function.update m p ((m p).clear f)) < flagCount m := by
  refine Finset.sum_lt_sum (fun q _ => ?_) ⟨p, mem_univ p, ?_⟩
  · by_cases hq : q = p
    · subst hq
      rw [update_self]
      refine Nat.add_le_add (toNat_le_toNat fun h => ?_) (toNat_le_toNat fun h => ?_)
      · exact (Bool.and_eq_true _ _ ▸ h : _ ∧ _).1
      · exact (Bool.and_eq_true _ _ ▸ h : _ ∧ _).1
    · rw [update_of_ne hq]
  · rw [update_self]
    revert hhas
    rcases m p with ⟨u, a⟩
    rcases f with ⟨fu, fa⟩
    revert u a fu fa
    decide

/-- `PM_UnmarkPackage` ends. -/
theorem Env.unmark_ends {fuel : ℕ} (hfuel : flagCount m < fuel) : ∃ m', env.unmark l fuel m p f = some m' := by
  induction fuel generalizing m p f with
  | zero => exact absurd hfuel (Nat.not_lt_zero _)
  | succ fuel ih =>
    rw [unmark]
    split
    · exact ⟨m, rfl⟩
    split
    · exact ⟨m, rfl⟩
    rename_i hhas
    have hlt := flagCount_clear (eq_true_of_ne_false (fun h => hhas (by rw [h]; rfl)) : (m p).has f = true)
    have hstep {m₁ : ι → Marks} (hm₁ : flagCount m₁ < fuel) (q : ι) (g : Marks) :
        ∃ m₂, env.unmark l fuel m₁ q g = some m₂ ∧ flagCount m₂ < fuel := by
      obtain ⟨m₂, h⟩ := ih hm₁ (p := q) (f := g)
      exact ⟨m₂, h, (unmark_spec h).1.flagCount_le.trans_lt hm₁⟩
    have hstart : flagCount (update m p ((m p).clear f)) < fuel := by omega
    dsimp only
    generalize update m p ((m p).clear f) = m₁ at hstart
    obtain ⟨m₂, hfirst, hm₂⟩ : ∃ m₂, (if (m₁ p).any = true then some m₁
        else l.foldlM (env.unmarkDependant (env.unmark l fuel) (env.name p)) m₁) = some m₂ ∧ flagCount m₂ < fuel := by
      split
      · exact ⟨m₁, rfl, hstart⟩
      · refine total (P := fun m => flagCount m < fuel) (fun m hm o _ => ?_) hstart
        refine total (P := fun m => flagCount m < fuel) (fun m hm dep _ => ?_) hm
        split
        · exact hstep hm o _
        · exact ⟨m, rfl, hm⟩
    rw [hfirst, bind_some]
    split
    · exact ⟨m₂, rfl⟩
    · have := total (P := fun m => flagCount m < fuel) (l := env.deps p)
        (f := env.unmarkUnused (env.unmark l fuel) l) (fun m hm dep _ => by
          unfold unmarkUnused
          split
          · split
            · exact ⟨m, rfl, hm⟩
            · split
              · exact hstep hm _ _
              · exact ⟨m, rfl, hm⟩
          · exact ⟨m, rfl, hm⟩) hm₂
      exact ⟨this.choose, this.choose_spec.1⟩

theorem Env.unmarkPackage_spec (env : Env ι) (l : List ι) (m : ι → Marks) (p : ι) (f : Marks) :
    ∃ m', env.unmarkPackage l m p f = some m' ∧ Cleared env l m m' ∧
      (env.updating = false → f = .marked → ¬(m' p).any = true) := by
  obtain ⟨m', h⟩ := @unmark_ends ι _ _ env l m p f _ (Nat.lt_succ_iff.mpr (flagCount_le m))
  exact ⟨m', h, unmark_spec h⟩

end Unmark

/-! ## Consistency -/

namespace Env

variable (env : Env ι)

/-- The package conflicts with the name, or replaces it. -/
def ConflictsWith (p : ι) (n : List QByte) : Prop :=
  ∃ dep ∈ env.deps p, (dep.dtype = .conflict ∨ dep.dtype = .replace) ∧ dep.name = n

/-- `PM_MarkPackage` does not refuse the package. -/
def Markable (p : ι) : Prop := env.signatureOkay p = true ∧ env.fileConflict p = false

/-- Two packages have a file of one name in one place. -/
def SharesFileAt (a b : ι) : Prop :=
  (env.package a).gamedir = (env.package b).gamedir ∧ (env.package a).fsroot = (env.package b).fsroot ∧
    env.sharesFile a b = true

/-- Two marked packages share their name or a file. -/
def Clash (m : ι → Marks) (a b : ι) : Prop :=
  a ≠ b ∧ (m a).any = true ∧ (m b).any = true ∧ (env.name a = env.name b ∨ env.SharesFileAt a b)

/-- A marked package conflicts with another one, or replaces it, by this name. -/
def Conflict (m : ι → Marks) (a b : ι) (n : List QByte) : Prop :=
  a ≠ b ∧ (m a).any = true ∧ (m b).any = true ∧ env.ConflictsWith a n ∧ env.fits (wanted n) b = true

/-- A marked package requires what a package that can be marked would satisfy, and no marked one does. -/
def Unmet (m : ι → Marks) (a : ι) (n : List QByte) : Prop :=
  (m a).any = true ∧ env.Requires a n ∧ (∃ q, env.fits (wanted n) q = true ∧ env.Markable q) ∧
    ¬∃ x, (m x).any = true ∧ env.fits (wanted n) x = true

/-- The marked packages are consistent. -/
structure Consistent (m : ι → Marks) : Prop where
  clash : ∀ a b, ¬env.Clash m a b
  conflict : ∀ a b n, ¬env.Conflict m a b n
  unmet : ∀ a n, ¬env.Unmet m a n

/-- Dependencies name packages without an architecture or a version, and of the packages that satisfy a requirement the
newest in the list can be marked if any can. -/
structure Simple (l : List ι) : Prop where
  plain : ∀ p, ∀ dep ∈ env.deps p, dep.dtype = .require ∨ dep.dtype = .recommend ∨ dep.dtype = .conflict ∨
    dep.dtype = .replace → Plain dep.name
  newest : ∀ p n, env.Requires p n → (∃ q, env.fits (wanted n) q = true ∧ env.Markable q) →
    ∃ d, env.findPackage l n = some d ∧ env.Markable d

/-- A dependency that names the package finds it. -/
def Findable (p : ι) : Prop := ∀ q, ∀ dep ∈ env.deps q, dep.dtype = .require ∨ dep.dtype = .recommend ∨
  dep.dtype = .conflict ∨ dep.dtype = .replace → dep.name = env.name p → env.foreign p = false

/-- The marked packages are in the list, and dependencies find them. -/
def Own (l : List ι) (m : ι → Marks) : Prop := ∀ p, (m p).any = true → p ∈ l ∧ env.Findable p

/-- Nothing that is inconsistent is new. -/
structure Better (l : List ι) (m m' : ι → Marks) : Prop where
  own : env.Own l m → env.Own l m'
  clash : ∀ a b, env.Clash m' a b → env.Clash m a b
  conflict : ∀ a b n, env.Conflict m' a b n → env.Conflict m a b n
  unmet : env.Own l m → ∀ a n, env.Unmet m' a n → env.Unmet m a n

end Env

section Better

variable {env : Env ι} {l : List ι} {m m' m'' : ι → Marks} {p a b : ι} {n : List QByte}

omit [Fintype ι] [DecidableEq ι]

namespace Env

theorem Better.refl (env : Env ι) (l : List ι) (m : ι → Marks) : env.Better l m m :=
  ⟨id, fun _ _ => id, fun _ _ _ => id, fun _ _ _ => id⟩

theorem Better.trans (h₁ : env.Better l m m') (h₂ : env.Better l m' m'') : env.Better l m m'' :=
  ⟨fun h => h₂.own (h₁.own h), fun a b h => h₁.clash a b (h₂.clash a b h),
    fun a b n h => h₁.conflict a b n (h₂.conflict a b n h),
    fun hown a n h => h₁.unmet hown a n (h₂.unmet (h₁.own hown) a n h)⟩

theorem Better.consistent (h : env.Better l m m') (hown : env.Own l m) (hm : env.Consistent m) : env.Consistent m' :=
  ⟨fun a b hc => hm.clash a b (h.clash a b hc), fun a b n hc => hm.conflict a b n (h.conflict a b n hc),
    fun a n hc => hm.unmet a n (h.unmet hown a n hc)⟩

theorem Clash.mono (hle : ∀ p, (m' p).any = true → (m p).any = true) (h : env.Clash m' a b) : env.Clash m a b :=
  ⟨h.1, hle a h.2.1, hle b h.2.2.1, h.2.2.2⟩

theorem Conflict.mono (hle : ∀ p, (m' p).any = true → (m p).any = true) (h : env.Conflict m' a b n) :
    env.Conflict m a b n :=
  ⟨h.1, hle a h.2.1, hle b h.2.2.1, h.2.2.2⟩

theorem Requires.plain (hs : env.Simple l) (h : env.Requires a n) : Plain n := by
  obtain ⟨dep, hdep, htype, rfl⟩ := h
  exact hs.plain a dep hdep (.inl htype)

theorem ConflictsWith.plain (hs : env.Simple l) (h : env.ConflictsWith a n) : Plain n := by
  obtain ⟨dep, hdep, htype, rfl⟩ := h
  exact hs.plain a dep hdep (.inr (.inr htype))

theorem Requires.native (h : env.Requires a n) (hp : env.Findable p) (hn : n = env.name p) : env.foreign p = false := by
  obtain ⟨dep, hdep, htype, rfl⟩ := h
  exact hp a dep hdep (.inl htype) hn

theorem ConflictsWith.native (h : env.ConflictsWith a n) (hp : env.Findable p) (hn : n = env.name p) :
    env.foreign p = false := by
  obtain ⟨dep, hdep, htype, rfl⟩ := h
  exact hp a dep hdep (.inr (.inr htype)) hn

/-- A requirement stays met when its packages are unmarked, as those that require it are unmarked too. -/
theorem Cleared.unmet (h : Cleared env l m m') (hs : env.Simple l) (hown : env.Own l m) (hu : env.Unmet m' a n) :
    env.Unmet m a n := by
  obtain ⟨ha, hreq, hq, hnot⟩ := hu
  refine ⟨h.any ha, hreq, hq, ?_⟩
  rintro ⟨x, hx, hfits⟩
  have hgone : ¬(m' x).any = true := fun hx' => hnot ⟨x, hx', hfits⟩
  have hname : env.name x = n := ((fits_iff (hreq.plain hs)).mp hfits).1
  exact h.dependants x hx hgone a (hown a (h.any ha)).1 (hname ▸ hreq) ha

theorem Cleared.better (h : Cleared env l m m') (hs : env.Simple l) : env.Better l m m' :=
  ⟨fun hown p hp => hown p (h.any hp), fun _ _ => .mono fun _ => h.any, fun _ _ _ => .mono fun _ => h.any,
    fun hown _ _ => h.unmet hs hown⟩

theorem sharesFile_comm {a b : ι} (h : env.sharesFile a b = true) : env.sharesFile b a = true := by
  unfold sharesFile at h ⊢
  obtain ⟨dep, hdep, h⟩ := any_eq_true.mp h
  rw [Bool.and_eq_true] at h
  obtain ⟨dep₂, hdep₂, h₂⟩ := any_eq_true.mp h.2
  rw [Bool.and_eq_true, decide_eq_true_eq, decide_eq_true_eq] at h₂
  refine any_eq_true.mpr ⟨dep₂, hdep₂, Bool.and_eq_true _ _ ▸ ⟨decide_eq_true h₂.1, ?_⟩⟩
  exact any_eq_true.mpr ⟨dep, hdep, Bool.and_eq_true _ _ ▸ ⟨h.1, decide_eq_true h₂.2.symm⟩⟩

theorem markedPackage_some {name : List QByte} {f : Marks} {d : ι} (h : env.markedPackage l m name f = some d) :
    d ∈ l ∧ env.fits (wanted name) d = true ∧ (m d).has f = true := by
  obtain ⟨hd, hok⟩ := newest_some h
  rw [Bool.and_eq_true] at hok
  exact ⟨hd, hok⟩

/-- No package of the name is marked. -/
theorem markedPackage_none {name : List QByte} (hown : env.Own l m)
    (h : env.markedPackage l m name .marked = none) {x : ι} (hx : (m x).any = true) :
    ¬env.fits (wanted name) x = true := fun hfits => by
  refine newest_none h (hown x hx).1 ?_
  rw [Marks.has_marked, hfits, hx]
  rfl

end Env

end Better

/-! ## What marking establishes -/

section Exclude

variable {env : Env ι} {l : List ι} {m m' : ι → Marks} {p : ι}

namespace Env

/-- What the loop over the marked packages changes, as the new package is marked or nothing that is marked requires its
name. -/
structure Excluded (env : Env ι) (l : List ι) (p : ι) (r r' : (ι → Marks) × Bool) : Prop where
  le : ∀ q, (r'.1 q).any = true → (r.1 q).any = true
  better : env.Own l r.1 → ((r.1 p).any = true ∨ ∀ a, (r.1 a).any = true → ¬env.Requires a (env.name p)) →
    env.Better l r.1 r'.1 ∧
      ((r'.1 p).any = true ∨ ∀ a, (r'.1 a).any = true → ¬env.Requires a (env.name p))
  replacing : (∀ x, (r.1 x).any = true → env.name x = env.name p → x = p) → r'.2 = r.2

omit [Fintype ι] [DecidableEq ι] in
theorem Excluded.refl (env : Env ι) (l : List ι) (p : ι) (r : (ι → Marks) × Bool) : Excluded env l p r r :=
  ⟨fun _ => id, fun _ h => ⟨.refl env l _, h⟩, fun _ => rfl⟩

omit [Fintype ι] [DecidableEq ι] in
theorem Excluded.trans {r r' r'' : (ι → Marks) × Bool} (h₁ : Excluded env l p r r') (h₂ : Excluded env l p r' r'') :
    Excluded env l p r r'' := by
  refine ⟨fun q hq => h₁.le q (h₂.le q hq), fun hown h => ?_, fun h => ?_⟩
  · obtain ⟨hb₁, h'⟩ := h₁.better hown h
    obtain ⟨hb₂, h''⟩ := h₂.better (hb₁.own hown) h'
    exact ⟨hb₁.trans hb₂, h''⟩
  · exact (h₂.replacing fun x hx => h x (h₁.le x hx)).trans (h₁.replacing h)

omit [Fintype ι] [DecidableEq ι] in
theorem Cleared.excluded (h : Cleared env l m m') (hs : env.Simple l) (b : Bool) :
    Excluded env l p (m, b) (m', b) := by
  refine ⟨fun _ => h.any, fun hown hp => ⟨h.better hs, ?_⟩, fun _ => rfl⟩
  by_cases hp' : (m' p).any = true
  · exact .inl hp'
  · refine .inr fun a ha hreq => ?_
    rcases hp with hp | hp
    · exact h.dependants p hp hp' a (hown a (h.any ha)).1 hreq ha
    · exact hp a (h.any ha) hreq

omit [Fintype ι] in
/-- Another version of the new package is replaced by it. -/
theorem excluded_update (hs : env.Simple l) {o : ι} (hop : o ≠ p) (ho : (m o).any = true)
    (hname : env.name o = env.name p) (hfind : env.Findable p) (b : Bool) :
    Excluded env l p (m, b) (Function.update m o .none, true) := by
  have hle : ∀ q, (update m o Marks.none q).any = true → (m q).any = true := fun q hq => by
    by_cases hqo : q = o
    · subst hqo
      rw [update_self] at hq
      cases hq
    · rwa [update_of_ne hqo] at hq
  refine ⟨hle, fun hown hp => ⟨⟨fun hown q hq => hown q (hle q hq), fun _ _ => .mono hle, fun _ _ _ => .mono hle,
    fun _ a n hu => ?_⟩, ?_⟩, fun h => absurd (h o ho hname) hop⟩
  · obtain ⟨ha, hreq, hq, hnot⟩ := hu
    refine ⟨hle a ha, hreq, hq, ?_⟩
    rintro ⟨x, hx, hfits⟩
    by_cases hxo : x = o
    · -- its name is that of the new package
      subst hxo
      obtain ⟨hxn, -⟩ := (fits_iff (hreq.plain hs)).mp hfits
      have hpn := hname.symm.trans hxn
      rcases hp with hp | hp
      · refine hnot ⟨p, ?_, (fits_iff (hreq.plain hs)).mpr ⟨hpn, hreq.native hfind hpn.symm⟩⟩
        dsimp only
        rw [update_of_ne hop.symm, hp]
      · exact hp a (hle a ha) (hpn ▸ hreq)
    · refine hnot ⟨x, ?_, hfits⟩
      dsimp only
      rw [update_of_ne hxo, hx]
  · refine hp.imp (fun hp => ?_) fun hp a ha => hp a (hle a ha)
    dsimp only
    rw [update_of_ne hop.symm, hp]

/-- A step of the loop. -/
theorem exclude_spec (hs : env.Simple l) (hup : env.updating = false) (hfind : env.Findable p)
    {r r' : (ι → Marks) × Bool} {o : ι} (h : env.exclude l p r o = some r') : Excluded env l p r r' ∧
      (o ≠ p → (r'.1 o).any = true → env.name o ≠ env.name p ∧ ¬env.sharesFile p o = true) := by
  unfold exclude at h
  by_cases hop : o = p
  · rw [if_pos hop] at h
    cases h
    exact ⟨.refl env l p r, fun hne => absurd hop hne⟩
  rw [if_neg hop] at h
  by_cases ho : (r.1 o).any = true
  swap
  · rw [if_neg ho] at h
    cases h
    exact ⟨.refl env l p r, fun _ ho' => absurd ho' ho⟩
  rw [if_pos ho] at h
  by_cases hname : env.name o = env.name p
  · rw [if_pos hname] at h
    cases h
    refine ⟨excluded_update hs hop ho hname hfind r.2, fun _ ho' => ?_⟩
    dsimp only at ho'
    rw [update_self] at ho'
    cases ho'
  rw [if_neg hname] at h
  have hunmark (h : (env.unmarkPackage l r.1 o .marked).map (·, r.2) = some r') : Excluded env l p r r' ∧
      ¬(r'.1 o).any = true := by
    obtain ⟨m', hrun, hcleared, hgone⟩ := env.unmarkPackage_spec l r.1 o .marked
    rw [hrun, map_some] at h
    cases h
    exact ⟨hcleared.excluded hs r.2, hgone hup rfl⟩
  by_cases hengine : ((env.package p).engine && (env.package o).engine) = true
  · rw [if_pos hengine] at h
    exact ⟨(hunmark h).1, fun _ ho' => absurd ho' (hunmark h).2⟩
  rw [if_neg hengine] at h
  by_cases hfile : env.sharesFile p o = true
  · rw [if_pos hfile] at h
    exact ⟨(hunmark h).1, fun _ ho' => absurd ho' (hunmark h).2⟩
  · rw [if_neg hfile] at h
    cases h
    exact ⟨.refl env l p r, fun _ _ => ⟨hname, hfile⟩⟩

theorem exclude_loop (hs : env.Simple l) (hup : env.updating = false) (hfind : env.Findable p)
    {r r' : (ι → Marks) × Bool} (h : l.foldlM (env.exclude l p) r = some r') : Excluded env l p r r' ∧
      ∀ o ∈ l, o ≠ p → (r'.1 o).any = true → env.name o ≠ env.name p ∧ ¬env.sharesFile p o = true :=
  ⟨rule (.refl env l p) .trans (fun _ _ _ _ h => (exclude_spec hs hup hfind h).1) h,
    rule_forall (R := Excluded env l p)
      (Q := fun o r => o ≠ p → (r.1 o).any = true → env.name o ≠ env.name p ∧ ¬env.sharesFile p o = true)
      (.refl env l p) .trans (fun he hq hop ho => hq hop (he.le _ ho))
      (fun _ _ _ _ h => exclude_spec hs hup hfind h) h⟩

end Env

end Exclude

/-- The list of packages, each of which is its own root. -/
structure Shape (s : State ι) (l : List ι) : Prop where
  list : s.list = some l
  root : ∀ p ∈ l, rootForAlt s p = some p

section Mark

variable {env : Env ι} {l : List ι} {s s' : State ι} {p : ι} {m m' : ι → Marks}

theorem findRoot_marks (s : State ι) (m : ι → Marks) (p : ι) (ps : List ι) :
    findRoot { s with marks := m } p ps = findRoot s p ps := by
  induction ps with
  | nil => rfl
  | cons q ps ih =>
    rw [findRoot, findRoot]
    simp only [ih]
    rfl

theorem Shape.marks (h : Shape s l) (m : ι → Marks) : Shape { s with marks := m } l := by
  refine ⟨h.list, fun p hp => ?_⟩
  rw [rootForAlt, show State.list { s with marks := m } = s.list from rfl, ← h.root p hp, rootForAlt]
  congr 1
  funext ps
  exact findRoot_marks s m p ps

namespace Env

/-- Only the marks have changed, and nothing that is inconsistent is new. -/
structure Settled (env : Env ι) (l : List ι) (s s' : State ι) : Prop where
  same : s' = { s with marks := s'.marks }
  better : env.Better l s.marks s'.marks

omit [Fintype ι] [DecidableEq ι] in
theorem Settled.refl (env : Env ι) (l : List ι) (s : State ι) : env.Settled l s s := ⟨rfl, .refl env l _⟩

omit [Fintype ι] [DecidableEq ι] in
theorem Settled.trans {s'' : State ι} (h₁ : env.Settled l s s') (h₂ : env.Settled l s' s'') :
    env.Settled l s s'' := by
  refine ⟨?_, h₁.better.trans h₂.better⟩
  rw [h₂.same, h₁.same]

theorem Settled.shape (h : env.Settled l s s') (hshape : Shape s l) : Shape s' l := by
  rw [h.same]
  exact hshape.marks _

omit [Fintype ι] [DecidableEq ι] in
theorem Better.of_any (h : ∀ q, (m' q).any = (m q).any) : env.Better l m m' :=
  ⟨fun hown p hp => hown p (h p ▸ hp), fun _ _ => .mono fun q hq => h q ▸ hq, fun _ _ _ => .mono fun q hq => h q ▸ hq,
    fun _ a _ hu => ⟨h a ▸ hu.1, hu.2.1, hu.2.2.1, fun hx => hu.2.2.2 <| hx.imp fun x hx => ⟨(h x).symm ▸ hx.1, hx.2⟩⟩⟩

/-- What a dependency asks for is so. -/
def Resolved (env : Env ι) (p : ι) (dep : Dep) (m : ι → Marks) : Prop :=
  (dep.dtype = .require → ¬env.Unmet m p dep.name) ∧
    (dep.dtype = .conflict ∨ dep.dtype = .replace → ∀ b, ¬env.Conflict m p b dep.name)

theorem unmarkAll_spec {name : List QByte} {n : ℕ} (h : env.unmarkAll l name n m = some m') :
    Cleared env l m m' ∧ env.markedPackage l m' name .marked = none := by
  induction n generalizing m with
  | zero => cases h
  | succ n ih =>
    rw [unmarkAll] at h
    split at h
    · cases h
      exact ⟨.refl env l _, by assumption⟩
    · rename_i d hd
      obtain ⟨m₁, hrun, hcleared, -⟩ := env.unmarkPackage_spec l m d .marked
      rw [hrun, bind_some] at h
      exact ⟨hcleared.trans (ih h).1, (ih h).2⟩

/-- What a call of `PM_MarkPackage` on a package of the list, of whose name no other one is marked, is known to do. -/
def MarkSpec (env : Env ι) (l : List ι) (s : State ι) (p : ι) (s' : State ι) (b : Bool) : Prop :=
  env.Settled l s s' ∧ (b = true → ∀ a, ¬env.Unmet s'.marks a (env.name p)) ∧ (b = false → ¬env.Markable p)

/-- The call can be made as its specification asks. -/
structure Ready (env : Env ι) (l : List ι) (s : State ι) (p : ι) : Prop where
  shape : Shape s l
  own : env.Own l s.marks
  mem : p ∈ l
  findable : env.Findable p
  one : ∀ x, (s.marks x).any = true → env.name x = env.name p → x = p

/-- A dependency of the new package is resolved. -/
theorem satisfy_spec (hs : env.Simple l) {rec : State ι → ι → Option (State ι × Bool)}
    (hrec : ∀ s d s' b, env.Ready l s d → rec s d = some (s', b) → env.MarkSpec l s d s' b) {dep : Dep}
    (hdep : dep ∈ env.deps p) (hshape : Shape s l) (hown : env.Own l s.marks) (h : env.satisfy rec s dep = some s') :
    env.Settled l s s' ∧ env.Resolved p dep s'.marks := by
  unfold satisfy at h
  rw [hshape.list, bind_some] at h
  by_cases hneed : dep.dtype = .require ∨ dep.dtype = .recommend
  · rw [if_pos hneed] at h
    have hplain : Plain dep.name := hs.plain p dep hdep (hneed.imp_right .inl)
    have hnot (m : ι → Marks) : dep.dtype = .conflict ∨ dep.dtype = .replace →
        ∀ b, ¬env.Conflict m p b dep.name := fun hc => by
      rcases hneed with hneed | hneed <;> rw [hneed] at hc <;> rcases hc with hc | hc <;> cases hc
    cases hmarked : env.markedPackage l s.marks dep.name .marked with
    | some d =>
      rw [hmarked] at h
      cases h
      obtain ⟨-, hfits, hd⟩ := markedPackage_some hmarked
      rw [Marks.has_marked] at hd
      exact ⟨.refl env l s, fun _ hu => hu.2.2.2 ⟨d, hd, hfits⟩, hnot _⟩
    | none =>
      rw [hmarked] at h
      dsimp only at h
      cases hfind : env.findPackage l dep.name with
      | none =>
        rw [hfind] at h
        cases h
        refine ⟨.refl env l s, fun _ hu => ?_, hnot _⟩
        obtain ⟨d, hd, -⟩ := hs.newest p dep.name hu.2.1 hu.2.2.1
        rw [hfind] at hd
        cases hd
      | some d =>
        rw [hfind] at h
        dsimp only at h
        by_cases hskip : (dep.dtype = .recommend && !env.checkPackageFeatures d) = true
        · rw [if_pos hskip] at h
          cases h
          rw [Bool.and_eq_true, decide_eq_true_eq] at hskip
          exact ⟨.refl env l s, fun hreq => absurd (hreq.symm.trans hskip.1) nofun, hnot _⟩
        rw [if_neg hskip] at h
        obtain ⟨⟨s₁, b⟩, hrun, heq⟩ := map_eq_some_iff.mp h
        cases heq
        obtain ⟨hd, hfits⟩ := newest_some hfind
        obtain ⟨hname, hnative⟩ := (fits_iff hplain).mp hfits
        have hready : env.Ready l s d := ⟨hshape, hown, hd, fun _ _ _ _ _ => hnative, fun x hx hxn => by
          have hx' := (hown x hx).2 p dep hdep (hneed.imp_right .inl) (hxn.trans hname).symm
          refine absurd ((fits_iff hplain).mpr ⟨hxn.trans hname, hx'⟩) ?_
          exact markedPackage_none hown hmarked hx⟩
        obtain ⟨hsettled, htrue, hfalse⟩ := hrec s d s₁ b hready hrun
        refine ⟨hsettled, fun _ hu => ?_, hnot _⟩
        cases b with
        | true => exact htrue rfl p (hname.symm ▸ hu)
        | false =>
          obtain ⟨d', hd', hmark⟩ := hs.newest p dep.name hu.2.1 hu.2.2.1
          rw [hfind] at hd'
          cases hd'
          exact hfalse rfl hmark
  · rw [if_neg hneed] at h
    have hreq : dep.dtype = .require → ¬env.Unmet s'.marks p dep.name := fun hr => absurd (.inl hr) hneed
    by_cases hc : dep.dtype = .conflict ∨ dep.dtype = .replace
    · rw [if_pos hc] at h
      obtain ⟨m, hrun, rfl⟩ := map_eq_some_iff.mp h
      obtain ⟨hcleared, hnone⟩ := unmarkAll_spec hrun
      have hbetter := hcleared.better hs
      refine ⟨⟨rfl, hbetter⟩, hreq, fun _ b hconf => ?_⟩
      exact markedPackage_none (hbetter.own hown) hnone hconf.2.2.1 hconf.2.2.2.2
    · rw [if_neg hc] at h
      cases h
      exact ⟨.refl env l s, hreq, fun h => absurd h hc⟩

theorem satisfy_loop (hs : env.Simple l) {rec : State ι → ι → Option (State ι × Bool)}
    (hrec : ∀ s d s' b, env.Ready l s d → rec s d = some (s', b) → env.MarkSpec l s d s' b)
    (hshape : Shape s l) (hown : env.Own l s.marks) (h : (env.deps p).foldlM (env.satisfy rec) s = some s') :
    (Shape s' l ∧ env.Own l s'.marks) ∧ env.Settled l s s' ∧ ∀ dep ∈ env.deps p, env.Resolved p dep s'.marks := by
  refine run (P := fun s => Shape s l ∧ env.Own l s.marks) (R := env.Settled l)
    (Q := fun dep s => env.Resolved p dep s.marks) (.refl env l) .trans (fun hP hR hQ => ?_)
    (fun s hP dep hdep s' h => ?_) ⟨hshape, hown⟩ h
  · exact ⟨fun hreq hu => hQ.1 hreq (hR.better.unmet hP.2 _ _ hu),
      fun hc b hconf => hQ.2 hc b (hR.better.conflict _ _ _ hconf)⟩
  · obtain ⟨hsettled, hresolved⟩ := satisfy_spec hs hrec hdep hP.1 hP.2 h
    exact ⟨⟨hsettled.shape hP.1, hsettled.better.own hP.2⟩, hsettled, hresolved⟩

/-- The packages that conflict with the new one are unmarked. -/
theorem unmarkConflicting_loop (hup : env.updating = false) {name : List QByte}
    (h : l.foldlM (env.unmarkConflicting l name) m = some m') :
    Cleared env l m m' ∧ ∀ o ∈ l, env.ConflictsWith o name → ¬(m' o).any = true := by
  have hstep : ∀ m, ∀ o ∈ l, ∀ m', env.unmarkConflicting l name m o = some m' →
      Cleared env l m m' ∧ (env.ConflictsWith o name → ¬(m' o).any = true) := by
    intro m o _ m' h
    have hinner : ∀ m, ∀ dep ∈ env.deps o, ∀ m',
        (if (dep.dtype = .conflict ∨ dep.dtype = .replace) ∧ dep.name = name then env.unmarkPackage l m o .marked
        else some m) = some m' →
        Cleared env l m m' ∧ ((dep.dtype = .conflict ∨ dep.dtype = .replace) ∧ dep.name = name → ¬(m' o).any = true) := by
      intro m dep _ m' h
      split at h
      · obtain ⟨m₁, hrun, hcleared, hgone⟩ := env.unmarkPackage_spec l m o .marked
        rw [hrun] at h
        cases h
        exact ⟨hcleared, fun _ => hgone hup rfl⟩
      · cases h
        exact ⟨.refl env l _, fun hdep => absurd hdep (by assumption)⟩
    refine ⟨rule (.refl env l) .trans (fun m dep hdep m' h => (hinner m dep hdep m' h).1) h, ?_⟩
    rintro ⟨dep, hdep, hname⟩
    exact rule_forall (R := Cleared env l) (.refl env l) .trans
      (fun hc hq hname ho => hq hname (hc.any ho)) hinner h dep hdep hname
  exact ⟨rule (.refl env l) .trans (fun m o ho m' h => (hstep m o ho m' h).1) h,
    rule_forall (R := Cleared env l) (Q := fun o m => env.ConflictsWith o name → ¬(m o).any = true)
      (.refl env l) .trans (fun hc hq hname ho => hq hname (hc.any ho)) hstep h⟩

end Env

end Mark

section Mark

variable {env : Env ι} {l : List ι} {s s' : State ι} {p : ι} {f : Marks}

namespace Env

/-- The marks with those of a new package. -/
def flagged (m : ι → Marks) (p : ι) (f : Marks) : ι → Marks := Function.update m p ((m p).set f)

omit [Fintype ι] in
theorem flagged_self (m : ι → Marks) (p : ι) (hf : f.any = true) : (flagged m p f p).any = true := by
  rw [flagged, update_self, Marks.any_set hf]

omit [Fintype ι] in
theorem flagged_other (m : ι → Marks) {q : ι} (hq : q ≠ p) : flagged m p f q = m q := update_of_ne hq _ _

omit [Fintype ι] in
/-- Nothing is inconsistent after all, as what is new is about the new package. -/
theorem better_of_flagged {m m' : ι → Marks} (hown : env.Own l m) (hmem : p ∈ l) (hfind : env.Findable p)
    (hb : env.Better l (flagged m p f) m') (hclash : ∀ b, ¬env.Clash m' p b) (hclash' : ∀ a, ¬env.Clash m' a p)
    (hconf : ∀ b n, ¬env.Conflict m' p b n) (hconf' : ∀ a n, ¬env.Conflict m' a p n) (hunmet : ∀ n, ¬env.Unmet m' p n) :
    env.Better l m m' := by
  have hown₁ : env.Own l (flagged m p f) := fun q hq => by
    by_cases hqp : q = p
    · exact hqp ▸ ⟨hmem, hfind⟩
    · exact hown q (flagged_other m hqp ▸ hq)
  refine ⟨fun _ => hb.own hown₁, fun a b h => ?_, fun a b n h => ?_, fun _ a n h => ?_⟩
  · by_cases hap : a = p
    · exact absurd (hap ▸ h) (hclash b)
    by_cases hbp : b = p
    · exact absurd (hbp ▸ h) (hclash' a)
    have h₁ := hb.clash a b h
    exact ⟨h₁.1, flagged_other m hap ▸ h₁.2.1, flagged_other m hbp ▸ h₁.2.2.1, h₁.2.2.2⟩
  · by_cases hap : a = p
    · exact absurd (hap ▸ h) (hconf b n)
    by_cases hbp : b = p
    · exact absurd (hbp ▸ h) (hconf' a n)
    have h₁ := hb.conflict a b n h
    exact ⟨h₁.1, flagged_other m hap ▸ h₁.2.1, flagged_other m hbp ▸ h₁.2.2.1, h₁.2.2.2⟩
  · by_cases hap : a = p
    · exact absurd (hap ▸ h) (hunmet n)
    have h₁ := hb.unmet hown₁ a n h
    refine ⟨flagged_other m hap ▸ h₁.1, h₁.2.1, h₁.2.2.1, ?_⟩
    rintro ⟨x, hx, hfits⟩
    refine h₁.2.2.2 ⟨x, ?_, hfits⟩
    by_cases hxp : x = p
    · rw [hxp, flagged, update_self]
      exact Marks.any_set_of_any (hxp ▸ hx) f
    · rw [flagged_other m hxp, hx]

omit [Fintype ι] in
theorem own_flagged {m : ι → Marks} (hown : env.Own l m) (hmem : p ∈ l) (hfind : env.Findable p) :
    env.Own l (flagged m p f) := fun q hq => by
  by_cases hqp : q = p
  · exact hqp ▸ ⟨hmem, hfind⟩
  · exact hown q (flagged_other m hqp ▸ hq)

omit [Fintype ι] [DecidableEq ι] in
/-- No marked package clashes with the new one. -/
theorem not_clash {m : ι → Marks} (hown : env.Own l m)
    (hall : ∀ o ∈ l, o ≠ p → (m o).any = true → env.name o ≠ env.name p ∧ ¬env.sharesFile p o = true) :
    (∀ b, ¬env.Clash m p b) ∧ ∀ a, ¬env.Clash m a p := by
  constructor
  · rintro b ⟨hne, -, hb, hshare⟩
    obtain ⟨hname, hfile⟩ := hall b (hown b hb).1 hne.symm hb
    exact hshare.elim (fun h => hname h.symm) fun h => hfile h.2.2
  · rintro a ⟨hne, ha, -, hshare⟩
    obtain ⟨hname, hfile⟩ := hall a (hown a ha).1 hne ha
    exact hshare.elim hname fun h => hfile (sharesFile_comm h.2.2)

/-- The new package is marked, and what it needs with it, where it does not replace another version. -/
theorem markListed_from (hs : env.Simple l) (hup : env.updating = false) {rec : State ι → ι → Option (State ι × Bool)}
    (hrec : ∀ s d s' b, env.Ready l s d → rec s d = some (s', b) → env.MarkSpec l s d s' b) {b : Bool}
    (hshape : Shape s l) (hown : env.Own l s.marks) (hmem : p ∈ l) (hfind : env.Findable p) (hf : f.any = true)
    {r : (ι → Marks) × Bool} (hloop : l.foldlM (env.exclude l p) (flagged s.marks p f, false) = some r)
    (hr : r.2 = false) (h : env.markListed rec s p f = some (s', b)) : env.MarkSpec l s p s' b := by
  unfold markListed at h
  rw [hshape.list, bind_some] at h
  change ((l.foldlM (env.exclude l p) (flagged s.marks p f, false)).bind _) = _ at h
  rw [hloop, bind_some] at h
  dsimp only at h
  rw [if_neg (by rw [hr]; exact false_ne_true)] at h
  obtain ⟨hexcluded, hall⟩ := exclude_loop hs hup hfind hloop
  have hown₁ : env.Own l (flagged s.marks p f) := own_flagged hown hmem hfind
  have hself : (flagged s.marks p f p).any = true := flagged_self _ _ hf
  obtain ⟨hbetter₁, -⟩ := hexcluded.better hown₁ (.inl hself)
  obtain ⟨s₂, hdeps, h⟩ := bind_eq_some_iff.mp h
  obtain ⟨⟨hshape₂, hown₂⟩, hsettled, hresolved⟩ :=
    satisfy_loop hs hrec (hshape.marks r.1) (hbetter₁.own hown₁) hdeps
  rw [hshape₂.list, bind_some] at h
  obtain ⟨m₃, hlast, heq⟩ := map_eq_some_iff.mp h
  cases heq
  obtain ⟨hcleared, hconflicting⟩ := unmarkConflicting_loop hup hlast
  have hbetter₃ := hcleared.better hs
  have hbetter : env.Better l (flagged s.marks p f) m₃ := hbetter₁.trans (hsettled.better.trans hbetter₃)
  obtain ⟨hclash, hclash'⟩ := not_clash (hbetter₁.own hown₁) hall
  have hrest := hsettled.better.trans hbetter₃
  have hname : ∀ a, ¬env.Unmet (flagged s.marks p f) a (env.name p) := fun a hu =>
    hu.2.2.2 ⟨p, hself, (fits_iff (hu.2.1.plain hs)).mpr ⟨rfl, hu.2.1.native hfind rfl⟩⟩
  refine ⟨⟨?_, better_of_flagged hown hmem hfind hbetter (fun b hc => hclash b (hrest.clash p b hc))
    (fun a hc => hclash' a (hrest.clash a p hc)) (fun b n hc => ?_) (fun a n hc => ?_) fun n hu => ?_⟩,
    fun _ a hu => hname a (hbetter.unmet hown₁ a _ hu), nofun⟩
  · rw [hsettled.same]
  · obtain ⟨dep, hdep, htype, rfl⟩ := hc.2.2.2.1
    exact (hresolved dep hdep).2 htype b (hbetter₃.conflict p b _ hc)
  · obtain ⟨-, ha, -, hwith, hfits⟩ := hc
    have hn : env.name p = n := ((fits_iff (hwith.plain hs)).mp hfits).1
    exact hconflicting a (hown₂ a (hcleared.any ha)).1 (hn ▸ hwith) ha
  · obtain ⟨dep, hdep, htype, rfl⟩ := hu.2.1
    exact (hresolved dep hdep).1 htype (hbetter₃.unmet hown₂ p _ hu)

/-- The loop over the marked packages comes before the rest. -/
theorem markListed_loop (hshape : Shape s l) {rec : State ι → ι → Option (State ι × Bool)} {b : Bool}
    (h : env.markListed rec s p f = some (s', b)) :
    ∃ r, l.foldlM (env.exclude l p) (flagged s.marks p f, false) = some r ∧
      (r.2 = true → s' = { s with marks := r.1 } ∧ b = true) := by
  unfold markListed at h
  rw [hshape.list, bind_some] at h
  change ((l.foldlM (env.exclude l p) (flagged s.marks p f, false)).bind _) = _ at h
  obtain ⟨r, hloop, h⟩ := bind_eq_some_iff.mp h
  refine ⟨r, hloop, fun hr => ?_⟩
  dsimp only at h
  rw [if_pos hr] at h
  cases h
  exact ⟨rfl, rfl⟩

theorem markListed_spec (hs : env.Simple l) (hup : env.updating = false) {rec : State ι → ι → Option (State ι × Bool)}
    (hrec : ∀ s d s' b, env.Ready l s d → rec s d = some (s', b) → env.MarkSpec l s d s' b) {b : Bool}
    (hready : env.Ready l s p) (hf : f.any = true) (h : env.markListed rec s p f = some (s', b)) :
    env.MarkSpec l s p s' b := by
  obtain ⟨hshape, hown, hmem, hfind, hone⟩ := hready
  obtain ⟨r, hloop, -⟩ := markListed_loop hshape h
  have hexcluded := (exclude_loop hs hup hfind hloop).1
  refine markListed_from hs hup hrec hshape hown hmem hfind hf hloop (hexcluded.replacing fun x hx hname => ?_) h
  by_contra hxp
  exact hxp (hone x (flagged_other s.marks hxp ▸ hx) hname)

/-- What `PM_MarkPackage` does, when no other version of the package is marked. -/
theorem markPackage_spec (hs : env.Simple l) (hup : env.updating = false) {fuel : ℕ} {b : Bool}
    (hready : env.Ready l s p) (hf : f.any = true) (h : env.markPackage fuel s p f = some (s', b)) :
    env.MarkSpec l s p s' b := by
  induction fuel generalizing s p f s' b with
  | zero => cases h
  | succ fuel ih =>
    rw [markPackage, if_neg (by rw [hup]; exact false_ne_true)] at h
    by_cases hmarked : (s.marks p).any = true
    · rw [if_pos hmarked] at h
      cases h
      refine ⟨⟨rfl, .of_any fun q => ?_⟩, fun _ a hu => ?_, nofun⟩
      · by_cases hqp : q = p
        · rw [hqp, hmarked]
          exact flagged_self _ _ hf
        · exact congrArg Marks.any (flagged_other s.marks hqp)
      · exact hu.2.2.2 ⟨p, flagged_self _ _ hf, (fits_iff (hu.2.1.plain hs)).mpr ⟨rfl, hu.2.1.native hready.findable rfl⟩⟩
    rw [if_neg hmarked] at h
    by_cases hsig : env.signatureOkay p = true
    swap
    · rw [if_pos (by rw [eq_false_of_ne_true hsig]; rfl)] at h
      cases h
      exact ⟨.refl env l s, nofun, fun _ hm => hsig hm.1⟩
    rw [if_neg (by rw [hsig]; exact false_ne_true)] at h
    by_cases hfile : env.fileConflict p = true
    · rw [if_pos hfile] at h
      cases h
      exact ⟨.refl env l s, nofun, fun _ hm => false_ne_true (hm.2.symm.trans hfile)⟩
    rw [if_neg hfile, hready.shape.root p hready.mem, bind_some] at h
    dsimp only at h
    rw [if_pos rfl] at h
    exact markListed_spec hs hup (fun _ _ _ _ hready h => ih hready rfl h) hready hf h

/-- A package that takes the place of a marked version with its dependencies. -/
theorem exclude_replacing (hs : env.Simple l) (hup : env.updating = false) (hown : env.Own l s.marks) (hmem : p ∈ l)
    (hfind : env.Findable p) (hf : f.any = true) {o : ι} (hop : o ≠ p) (ho : (s.marks o).any = true)
    (hname : env.name o = env.name p)
    (hsame : (∀ n, env.Requires p n → env.Requires o n) ∧ ∀ n, env.ConflictsWith p n → env.ConflictsWith o n)
    (hcons : env.Consistent s.marks) {r : (ι → Marks) × Bool}
    (h : l.foldlM (env.exclude l p) (flagged s.marks p f, false) = some r) :
    env.Consistent r.1 ∧ env.Own l r.1 := by
  obtain ⟨hexcluded, hall⟩ := exclude_loop hs hup hfind h
  have hown₁ : env.Own l (flagged s.marks p f) := own_flagged hown hmem hfind
  obtain ⟨hbetter, -⟩ := hexcluded.better hown₁ (.inl (flagged_self _ _ hf))
  have hown₂ := hbetter.own hown₁
  obtain ⟨hclash, hclash'⟩ := not_clash hown₂ hall
  have hold {q : ι} (hq : q ≠ p) (h : (flagged s.marks p f q).any = true) : (s.marks q).any = true :=
    flagged_other s.marks hq ▸ h
  refine ⟨⟨fun a b hc => ?_, fun a b n hc => ?_, fun a n hu => ?_⟩, hown₂⟩
  · by_cases hap : a = p
    · exact hclash b (hap ▸ hc)
    by_cases hbp : b = p
    · exact hclash' a (hbp ▸ hc)
    have h₁ := hbetter.clash a b hc
    exact hcons.clash a b ⟨h₁.1, hold hap h₁.2.1, hold hbp h₁.2.2.1, h₁.2.2.2⟩
  · obtain ⟨hne, ha, hb, hwith, hfits⟩ := hbetter.conflict a b n hc
    obtain ⟨hbn, -⟩ := (fits_iff (hwith.plain hs)).mp hfits
    by_cases hap : a = p
    · subst hap
      have hbo : b ≠ o := fun hbo => (hall b (hown₂ b hc.2.2.1).1 hne.symm hc.2.2.1).1 (hbo ▸ hname)
      exact hcons.conflict o b n ⟨hbo.symm, ho, hold hne.symm hb, hsame.2 n hwith, hfits⟩
    by_cases hbp : b = p
    · subst hbp
      have hao : a ≠ o := fun hao => (hall a (hown₂ a hc.2.1).1 hap hc.2.1).1 (hao ▸ hname)
      exact hcons.conflict a o n ⟨hao, hold hap ha, ho, hwith, (fits_iff (hwith.plain hs)).mpr
          ⟨hname.trans hbn, hwith.native (hown o ho).2 (hname.trans hbn).symm⟩⟩
    · exact hcons.conflict a b n ⟨hne, hold hap ha, hold hbp hb, hwith, hfits⟩
  · obtain ⟨ha, hreq, hq, hnot⟩ := hbetter.unmet hown₁ a n hu
    have hnot' : ¬∃ x, (s.marks x).any = true ∧ env.fits (wanted n) x = true := by
      rintro ⟨x, hx, hfits⟩
      refine hnot ⟨x, ?_, hfits⟩
      by_cases hxp : x = p
      · rw [hxp]
        exact flagged_self _ _ hf
      · dsimp only
        rw [flagged_other s.marks hxp, hx]
    by_cases hap : a = p
    · subst hap
      exact hcons.unmet o n ⟨ho, hsame.1 n hreq, hq, hnot'⟩
    · exact hcons.unmet a n ⟨hold hap ha, hreq, hq, hnot'⟩

end Env

end Mark

/-! ## Marking ends -/

namespace Env

variable (env : Env ι)

/-- Two packages, or one, that marking does not leave marked together. -/
def Excludes (a b : ι) : Prop :=
  (a ≠ b ∧ (env.name a = env.name b ∨ ((env.package a).engine && (env.package b).engine) = true ∨
    env.sharesFile a b = true)) ∨ env.ConflictsWith a (env.name b) ∨ env.ConflictsWith b (env.name a)

/-- A package makes `PM_MarkPackage` mark another one. -/
def Needs (l : List ι) (p d : ι) : Prop :=
  ∃ dep ∈ env.deps p, (dep.dtype = .require ∨ dep.dtype = .recommend) ∧ env.findPackage l dep.name = some d ∧
    (dep.dtype = .recommend → env.checkPackageFeatures d = true) ∧ env.Markable d

/-- No package that needs itself, however indirectly, needs packages that exclude each other. -/
def Acyclic (l : List ι) : Prop :=
  ∀ e, Relation.TransGen (env.Needs l) e e → ∀ a b, Relation.ReflTransGen (env.Needs l) e a →
    Relation.ReflTransGen (env.Needs l) e b → ¬env.Excludes a b

end Env

section Ends

variable {env : Env ι} {l : List ι} {s s' : State ι} {p : ι} {f : Marks} {m m' : ι → Marks}

namespace Env

theorem satisfy_mono {rec rec' : State ι → ι → Option (State ι × Bool)}
    (hrec : ∀ s d r, rec s d = some r → rec' s d = some r) {dep : Dep} (h : env.satisfy rec s dep = some s') :
    env.satisfy rec' s dep = some s' := by
  unfold satisfy at h ⊢
  obtain ⟨l, hl, h⟩ := bind_eq_some_iff.mp h
  rw [hl, bind_some]
  split at h
  · rw [if_pos (by assumption)]
    split at h
    · exact h
    · split at h
      · exact h
      · split at h
        · rw [if_pos (by assumption)]
          exact h
        · rw [if_neg (by assumption)]
          obtain ⟨r, hr, heq⟩ := map_eq_some_iff.mp h
          exact map_eq_some_iff.mpr ⟨r, hrec _ _ _ hr, heq⟩
  · rw [if_neg (by assumption)]
    exact h

theorem markListed_mono {rec rec' : State ι → ι → Option (State ι × Bool)}
    (hrec : ∀ s d r, rec s d = some r → rec' s d = some r) {r : State ι × Bool}
    (h : env.markListed rec s p f = some r) : env.markListed rec' s p f = some r := by
  unfold markListed at h ⊢
  obtain ⟨l, hl, h⟩ := bind_eq_some_iff.mp h
  rw [hl, bind_some]
  dsimp only at h ⊢
  obtain ⟨r₁, hloop, h⟩ := bind_eq_some_iff.mp h
  rw [hloop, bind_some]
  split at h
  · rw [if_pos (by assumption)]
    exact h
  · rw [if_neg (by assumption)]
    obtain ⟨s₂, hdeps, h⟩ := bind_eq_some_iff.mp h
    rw [OptionLoop.mono (fun _ _ _ => satisfy_mono hrec) hdeps, bind_some]
    exact h

/-- More levels do not matter. -/
theorem markPackage_mono {fuel : ℕ} {r : State ι × Bool} (h : env.markPackage fuel s p f = some r) :
    env.markPackage (fuel + 1) s p f = some r := by
  induction fuel generalizing s p f r with
  | zero => cases h
  | succ fuel ih =>
    rw [markPackage] at h ⊢
    iterate 4
      split at h
      · rw [if_pos (by assumption)]
        exact h
      rw [if_neg (by assumption)]
    obtain ⟨root, hroot, h⟩ := bind_eq_some_iff.mp h
    rw [hroot, bind_some]
    dsimp only at h ⊢
    split at h
    · rw [if_pos (by assumption)]
      exact markListed_mono (fun _ _ _ h => ih h) h
    rw [if_neg (by assumption)]
    split at h
    · rw [if_pos (by assumption)]
      exact h
    rw [if_neg (by assumption)]
    exact markListed_mono (fun _ _ _ h => ih h) h

end Env

/-- How many packages are marked. -/
def markCount (m : ι → Marks) : ℕ := (Finset.univ.filter fun p => (m p).any = true).card

omit [DecidableEq ι] in
theorem Env.Cleared.markCount_lt (h : Env.Cleared env l m m') (hp : (m p).any = true) (hp' : ¬(m' p).any = true) :
    markCount m' < markCount m := by
  refine card_lt_card ⟨fun q hq => ?_, fun hsub => ?_⟩
  · rw [Finset.mem_filter] at hq ⊢
    exact ⟨hq.1, h.any hq.2⟩
  · have := hsub (Finset.mem_filter.mpr ⟨mem_univ p, hp⟩)
    exact hp' (Finset.mem_filter.mp this).2

namespace Env

/-- The loop that unmarks the packages of a name ends. -/
theorem unmarkAll_ends (hup : env.updating = false) {P : (ι → Marks) → Prop} {name : List QByte}
    (hstep : ∀ m m' d, P m → env.markedPackage l m name .marked = some d → env.unmarkPackage l m d .marked = some m' →
      P m') {n : ℕ} (hn : markCount m < n) (hm : P m) : ∃ m', env.unmarkAll l name n m = some m' ∧ P m' := by
  induction n generalizing m with
  | zero => exact absurd hn (Nat.not_lt_zero _)
  | succ n ih =>
    rw [unmarkAll]
    cases hmarked : env.markedPackage l m name .marked with
    | none => exact ⟨m, rfl, hm⟩
    | some d =>
      obtain ⟨m₁, hrun, hcleared, hgone⟩ := env.unmarkPackage_spec l m d .marked
      obtain ⟨-, -, hd⟩ := markedPackage_some hmarked
      rw [Marks.has_marked] at hd
      have hlt := hcleared.markCount_lt hd (hgone hup rfl)
      obtain ⟨m', hrest, hm'⟩ := ih (by omega : markCount m₁ < n) (hstep m m₁ d hm hmarked hrun)
      exact ⟨m', by dsimp only; rw [hrun, bind_some, hrest], hm'⟩

/-- A call on a package that is marked, or that it refuses. -/
theorem markPackage_atOnce (hup : env.updating = false) (h : (s.marks p).any = true ∨ ¬env.Markable p) :
    ∃ m b, (∀ q, (m q).any = (s.marks q).any) ∧
      ∀ fuel, env.markPackage (fuel + 1) s p f = some ({ s with marks := m }, b) := by
  by_cases hp : (s.marks p).any = true
  · refine ⟨flagged s.marks p f, true, fun q => ?_, fun fuel => ?_⟩
    · by_cases hq : q = p
      · rw [hq, hp, flagged, update_self]
        exact Marks.any_set_of_any hp f
      · exact congrArg Marks.any (flagged_other s.marks hq)
    · rw [markPackage, if_neg (by rw [hup]; exact false_ne_true), if_pos hp]
      rfl
  have hmark := h.resolve_left hp
  refine ⟨s.marks, false, fun _ => rfl, fun fuel => ?_⟩
  rw [markPackage, if_neg (by rw [hup]; exact false_ne_true), if_neg hp]
  by_cases hsig : env.signatureOkay p = true
  · have hfile : env.fileConflict p = true := eq_true_of_ne_false fun h => hmark ⟨hsig, h⟩
    rw [if_neg (by rw [hsig]; exact false_ne_true), if_pos hfile]
  · rw [if_pos (by rw [eq_false_of_ne_true hsig]; rfl)]

/-- A call on a package that it does not refuse ends, if those that it makes do: an invariant holds over what it does, which
is to set the marks of the package and to unmark packages that it excludes. -/
theorem mark_ends_of (hs : env.Simple l) (hup : env.updating = false) (hshape : Shape s l) (hmem : p ∈ l)
    (hmarked : ¬(s.marks p).any = true) (hmark : env.Markable p) {P : (ι → Marks) → Prop} (hflag : P (flagged s.marks p f))
    (hunmark : ∀ m m' o, P m → env.Excludes p o → env.unmarkPackage l m o .marked = some m' → P m')
    (hclear : ∀ m o, P m → env.Excludes p o → P (Function.update m o .none))
    (hsame : ∀ m m', P m → (∀ q, (m' q).any = (m q).any) → P m')
    (hrec : ∀ s d, Shape s l → P s.marks → env.Needs l p d →
      ∃ fuel s' b, env.markPackage fuel s d .automarked = some (s', b) ∧ Shape s' l ∧ P s'.marks) :
    ∃ fuel s' b, env.markPackage fuel s p f = some (s', b) ∧ Shape s' l ∧ P s'.marks := by
  have hunmarkRun {m : ι → Marks} {o : ι} (hm : P m) (ho : env.Excludes p o) :
      ∃ m', env.unmarkPackage l m o .marked = some m' ∧ P m' := by
    obtain ⟨m', hrun, -⟩ := env.unmarkPackage_spec l m o .marked
    exact ⟨m', hrun, hunmark m m' o hm ho hrun⟩
  -- the loop over the marked packages
  obtain ⟨r, hloop, hr⟩ : ∃ r, l.foldlM (env.exclude l p) (flagged s.marks p f, false) = some r ∧ P r.1 := by
    refine total (P := fun r : (ι → Marks) × Bool => P r.1) (fun r hr o _ => ?_) hflag
    unfold exclude
    by_cases hop : o = p
    · exact ⟨r, if_pos hop, hr⟩
    rw [if_neg hop]
    by_cases ho : (r.1 o).any = true
    swap
    · exact ⟨r, if_neg ho, hr⟩
    rw [if_pos ho]
    by_cases hname : env.name o = env.name p
    · exact ⟨_, if_pos hname, hclear r.1 o hr (.inl ⟨Ne.symm hop, .inl hname.symm⟩)⟩
    rw [if_neg hname]
    by_cases hengine : ((env.package p).engine && (env.package o).engine) = true
    · obtain ⟨m', hrun, hm'⟩ := hunmarkRun hr (.inl ⟨Ne.symm hop, .inr (.inl hengine)⟩)
      exact ⟨(m', r.2), by rw [if_pos hengine, hrun, map_some], hm'⟩
    rw [if_neg hengine]
    by_cases hfile : env.sharesFile p o = true
    · obtain ⟨m', hrun, hm'⟩ := hunmarkRun hr (.inl ⟨Ne.symm hop, .inr (.inr hfile)⟩)
      exact ⟨(m', r.2), by rw [if_pos hfile, hrun, map_some], hm'⟩
    · exact ⟨r, if_neg hfile, hr⟩
  -- the dependencies
  obtain ⟨fuel, s₂, hdeps, hshape₂, hs₂⟩ : ∃ fuel s₂, (env.deps p).foldlM
      (env.satisfy fun s d => env.markPackage fuel s d .automarked) { s with marks := r.1 } = some s₂ ∧
      Shape s₂ l ∧ P s₂.marks := by
    refine OptionLoop.total_fuel (P := fun s : State ι => Shape s l ∧ P s.marks)
      (fun n s dep s' h => satisfy_mono (fun _ _ _ h => markPackage_mono h) h) (fun s hP dep hdep => ?_)
      ⟨hshape.marks _, hr⟩
    obtain ⟨hshape, hPs⟩ := hP
    simp only [satisfy, hshape.list, bind_some]
    by_cases hneed : dep.dtype = .require ∨ dep.dtype = .recommend
    · simp only [if_pos hneed]
      cases env.markedPackage l s.marks dep.name .marked with
      | some _ => exact ⟨0, s, rfl, hshape, hPs⟩
      | none =>
        cases hfind : env.findPackage l dep.name with
        | none => exact ⟨0, s, rfl, hshape, hPs⟩
        | some d =>
          by_cases hskip : (dep.dtype = .recommend && !env.checkPackageFeatures d) = true
          · exact ⟨0, s, if_pos hskip, hshape, hPs⟩
          simp only [if_neg hskip]
          by_cases hd : env.Markable d
          · have hneeds : env.Needs l p d := ⟨dep, hdep, hneed, hfind, fun hrec => by
              rw [Bool.and_eq_true, decide_eq_true_eq, Bool.not_eq_true'] at hskip
              exact eq_true_of_ne_false fun hfeat => hskip ⟨hrec, hfeat⟩, hd⟩
            obtain ⟨n, s', b, hrun, hs'⟩ := hrec s d hshape hPs hneeds
            exact ⟨n, s', by rw [hrun, map_some], hs'⟩
          · obtain ⟨m, b, hsame', hrun⟩ := markPackage_atOnce (s := s) (f := .automarked) hup (.inr hd)
            exact ⟨1, { s with marks := m }, by rw [hrun, map_some], hshape.marks _, hsame _ _ hPs hsame'⟩
    · simp only [if_neg hneed]
      by_cases hc : dep.dtype = .conflict ∨ dep.dtype = .replace
      · have hcount : markCount s.marks < Fintype.card ι + 1 := Nat.lt_succ_iff.mpr (Finset.card_le_univ _)
        have hexcluded (m m' : ι → Marks) (d : ι) (hm : P m) (hd : env.markedPackage l m dep.name .marked = some d)
            (hrun : env.unmarkPackage l m d .marked = some m') : P m' := by
          obtain ⟨-, hfits, -⟩ := markedPackage_some hd
          have hname := ((fits_iff (hs.plain p dep hdep (.inr (.inr hc)))).mp hfits).1
          exact hunmark m m' d hm (.inr (.inl ⟨dep, hdep, hc, hname.symm⟩)) hrun
        obtain ⟨m', hrun, hm'⟩ := unmarkAll_ends hup hexcluded hcount hPs
        refine ⟨0, { s with marks := m' }, ?_, hshape.marks _, hm'⟩
        rw [if_pos hc, hrun, map_some]
      · exact ⟨0, s, if_neg hc, hshape, hPs⟩
  -- the packages that conflict with it
  obtain ⟨m₃, hlast, hm₃⟩ : ∃ m₃, l.foldlM (env.unmarkConflicting l (env.name p)) s₂.marks = some m₃ ∧ P m₃ := by
    refine total (fun m hm o _ => ?_) hs₂
    refine total (fun m hm dep hdep => ?_) hm
    by_cases hdep' : (dep.dtype = .conflict ∨ dep.dtype = .replace) ∧ dep.name = env.name p
    · obtain ⟨m', hrun, hm'⟩ := hunmarkRun hm (.inr (.inr ⟨dep, hdep, hdep'⟩) : env.Excludes p o)
      exact ⟨m', by rw [if_pos hdep', hrun], hm'⟩
    · exact ⟨m, if_neg hdep', hm⟩
  have hbody : ∃ s' b, env.markListed (fun s d => env.markPackage fuel s d .automarked) s p f = some (s', b) ∧
      Shape s' l ∧ P s'.marks := by
    unfold markListed
    rw [hshape.list, bind_some]
    change ∃ s' b, (l.foldlM (env.exclude l p) (flagged s.marks p f, false)).bind _ = some (s', b) ∧ _
    rw [hloop, bind_some]
    by_cases hreplacing : r.2 = true
    · exact ⟨_, _, if_pos hreplacing, hshape.marks _, hr⟩
    · refine ⟨{ s₂ with marks := m₃ }, true, ?_, hshape₂.marks _, hm₃⟩
      dsimp only
      rw [if_neg hreplacing, hdeps, bind_some, hshape₂.list, bind_some, hlast, map_some]
  obtain ⟨s', b, hrun, hs'⟩ := hbody
  refine ⟨fuel + 1, s', b, ?_, hs'⟩
  rw [markPackage, if_neg (by rw [hup]; exact false_ne_true), if_neg hmarked,
    if_neg (by rw [hmark.1]; exact false_ne_true), if_neg (by rw [hmark.2]; exact false_ne_true),
    hshape.root p hmem, bind_some]
  dsimp only
  rw [if_pos rfl]
  exact hrun

end Env

end Ends

section Ends

variable {env : Env ι} {l : List ι} {s : State ι} {p : ι} {f : Marks} {m m' : ι → Marks} {R : ι → Prop} [DecidablePred R]

/-- What there is left to do for a set of packages that are to be marked together: the marked packages outside it count
for more than those in it that are not marked. -/
def undone (R : ι → Prop) [DecidablePred R] (m : ι → Marks) : ℕ :=
  (Fintype.card ι + 1) * (Finset.univ.filter fun q => ¬R q ∧ (m q).any = true).card +
    (Finset.univ.filter fun q => R q ∧ ¬(m q).any = true).card

omit [DecidableEq ι] in
theorem undone_congr (h : ∀ q, (m' q).any = (m q).any) : undone R m' = undone R m := by
  simp only [undone, h]

theorem undone_flagged (hp : R p) (hm : ¬(m p).any = true) (hf : f.any = true) :
    undone R (Env.flagged m p f) < undone R m := by
  refine Nat.add_lt_add_of_le_of_lt (Nat.mul_le_mul_left _ (Finset.card_le_card fun q hq => ?_))
    (card_lt_card (Finset.ssubset_iff_of_subset (fun q hq => ?_) |>.mpr ⟨p, ?_, ?_⟩))
  · rw [Finset.mem_filter] at hq ⊢
    have hqp : q ≠ p := fun h => hq.2.1 (h ▸ hp)
    exact ⟨hq.1, hq.2.1, Env.flagged_other m hqp ▸ hq.2.2⟩
  · rw [Finset.mem_filter] at hq ⊢
    have hqp : q ≠ p := fun h => hq.2.2 (h ▸ Env.flagged_self m p hf)
    exact ⟨hq.1, hq.2.1, Env.flagged_other m hqp ▸ hq.2.2⟩
  · exact Finset.mem_filter.mpr ⟨mem_univ p, hp, hm⟩
  · exact fun h => (Finset.mem_filter.mp h).2.2 (Env.flagged_self m p hf)

omit [DecidableEq ι] in
/-- A package outside the set is unmarked, whatever happens in it. -/
theorem undone_outside (hle : ∀ q, (m' q).any = true → (m q).any = true) {o : ι} (ho : ¬R o) (hm : (m o).any = true)
    (hm' : ¬(m' o).any = true) : undone R m' < undone R m := by
  have hlt : (univ.filter fun q => ¬R q ∧ (m' q).any = true).card <
      (univ.filter fun q => ¬R q ∧ (m q).any = true).card := by
    refine card_lt_card (Finset.ssubset_iff_of_subset (fun q hq => ?_) |>.mpr ⟨o, ?_, ?_⟩)
    · rw [Finset.mem_filter] at hq ⊢
      exact ⟨hq.1, hq.2.1, hle q hq.2.2⟩
    · exact Finset.mem_filter.mpr ⟨mem_univ o, ho, hm⟩
    · exact fun h => hm' (Finset.mem_filter.mp h).2.2
  have hin : (univ.filter fun q => R q ∧ ¬(m' q).any = true).card ≤ Fintype.card ι := Finset.card_le_univ _
  calc undone R m' < (Fintype.card ι + 1) * ((univ.filter fun q => ¬R q ∧ (m' q).any = true).card + 1) := by
        rw [undone, Nat.mul_add, Nat.mul_one]
        omega
    _ ≤ (Fintype.card ι + 1) * (univ.filter fun q => ¬R q ∧ (m q).any = true).card := Nat.mul_le_mul_left _ hlt
    _ ≤ undone R m := Nat.le_add_right _ _

namespace Env

theorem unmarkPackage_of_not (hm : ¬(m p).any = true) : env.unmarkPackage l m p .marked = some m := by
  rw [unmarkPackage, unmark]
  by_cases hup : env.updating = true
  · exact if_pos hup
  · rw [if_neg hup, if_pos (by rw [Marks.has_marked, eq_false_of_ne_true hm]; rfl)]

/-- Marking ends among packages that do not exclude each other, which need no others. -/
theorem mark_ends_within (hs : env.Simple l) (hup : env.updating = false)
    (hclosed : ∀ x d, R x → env.Needs l x d → R d) (hfree : ∀ a b, R a → R b → ¬env.Excludes a b) (hshape : Shape s l)
    (hmem : p ∈ l) (hp : R p) (hf : f.any = true) : ∃ fuel s' b, env.markPackage fuel s p f = some (s', b) ∧
      Shape s' l ∧ undone R s'.marks ≤ undone R s.marks := by
  induction hk : undone R s.marks using Nat.strong_induction_on generalizing s p f with
  | h k ih =>
    by_cases hquick : (s.marks p).any = true ∨ ¬env.Markable p
    · obtain ⟨m, b, hsame, hrun⟩ := markPackage_atOnce (f := f) hup hquick
      exact ⟨1, _, b, hrun 0, hshape.marks m, (undone_congr hsame).trans hk |>.le⟩
    obtain ⟨hmarked, hmark⟩ := not_or.mp hquick
    have hout {o : ι} (ho : env.Excludes p o) : ¬R o := fun hoR => hfree p o hp hoR ho
    have hunmark (m m' : ι → Marks) (o : ι) (hm : undone R m < k) (ho : env.Excludes p o)
        (hrun : env.unmarkPackage l m o .marked = some m') : undone R m' < k := by
      by_cases hom : (m o).any = true
      · obtain ⟨m₁, hrun', hcleared, hgone⟩ := env.unmarkPackage_spec l m o .marked
        obtain rfl : m₁ = m' := some_inj.mp (hrun'.symm.trans hrun)
        have hlt : undone R m₁ < undone R m := undone_outside (fun _ => hcleared.any) (hout ho) hom (hgone hup rfl)
        exact hlt.trans hm
      · cases (unmarkPackage_of_not hom).symm.trans hrun
        exact hm
    have hclear (m : ι → Marks) (o : ι) (hm : undone R m < k) (ho : env.Excludes p o) :
        undone R (update m o .none) < k := by
      by_cases hom : (m o).any = true
      · refine (undone_outside (fun q hq => ?_) (hout ho) hom ?_).trans hm
        · by_cases hqo : q = o
          · exact hqo ▸ hom
          · rwa [update_of_ne hqo] at hq
        · rw [update_self]
          exact false_ne_true
      · refine (undone_congr fun q => ?_).trans_lt hm
        by_cases hqo : q = o
        · rw [hqo, update_self, eq_false_of_ne_true hom]
          rfl
        · rw [update_of_ne hqo]
    obtain ⟨fuel, s', b, hrun, hshape', hlt⟩ := mark_ends_of hs hup hshape hmem hmarked (not_not.mp hmark)
      (P := fun m => undone R m < k) (f := f) (hk ▸ undone_flagged hp hmarked hf) hunmark hclear
      (fun m m' hm h => (undone_congr h).trans_lt hm) fun s d hshape hm hneeds => by
        obtain ⟨dep, -, -, hfind, -⟩ := id hneeds
        obtain ⟨fuel, s', b, hrun, hshape', hle⟩ := ih _ hm (f := .automarked) hshape
          (newest_some hfind).1 (hclosed p d hp hneeds) rfl rfl
        exact ⟨fuel, s', b, hrun, hshape', hle.trans_lt hm⟩
    exact ⟨fuel, s', b, hrun, hshape', hlt.le⟩

/-- Marking ends. -/
theorem mark_ends (hs : env.Simple l) (hup : env.updating = false) (hacyclic : env.Acyclic l) (hshape : Shape s l)
    (hmem : p ∈ l) (hf : f.any = true) : ∃ fuel s' b, env.markPackage fuel s p f = some (s', b) := by
  classical
  suffices h : ∃ fuel s' b, env.markPackage fuel s p f = some (s', b) ∧ Shape s' l by
    obtain ⟨fuel, s', b, hrun, -⟩ := h
    exact ⟨fuel, s', b, hrun⟩
  induction hk : (univ.filter (Relation.ReflTransGen (env.Needs l) p)).card using Nat.strong_induction_on
    generalizing s p f with
  | h k ih =>
    by_cases hcycle : Relation.TransGen (env.Needs l) p p
    · obtain ⟨fuel, s', b, hrun, hshape', -⟩ := mark_ends_within (R := Relation.ReflTransGen (env.Needs l) p) hs hup
        (fun _ _ => .tail) (hacyclic p hcycle) hshape hmem .refl hf
      exact ⟨fuel, s', b, hrun, hshape'⟩
    by_cases hquick : (s.marks p).any = true ∨ ¬env.Markable p
    · obtain ⟨m, b, -, hrun⟩ := markPackage_atOnce (f := f) hup hquick
      exact ⟨1, _, b, hrun 0, hshape.marks m⟩
    obtain ⟨hmarked, hmark⟩ := not_or.mp hquick
    -- what it needs does not need it
    have hlt {d : ι} (hneeds : env.Needs l p d) :
        (univ.filter (Relation.ReflTransGen (env.Needs l) d)).card < k := by
      rw [← hk]
      refine card_lt_card (Finset.ssubset_iff_of_subset (fun q hq => ?_) |>.mpr ⟨p, ?_, fun h => ?_⟩)
      · exact Finset.mem_filter.mpr ⟨mem_univ q, .head hneeds (Finset.mem_filter.mp hq).2⟩
      · exact Finset.mem_filter.mpr ⟨mem_univ p, .refl⟩
      · exact hcycle (.head' hneeds (Finset.mem_filter.mp h).2)
    obtain ⟨fuel, s', b, hrun, hshape', -⟩ := mark_ends_of hs hup hshape hmem hmarked (not_not.mp hmark)
      (P := fun _ => True) (f := f) trivial (fun _ _ _ _ _ _ => trivial) (fun _ _ _ _ => trivial)
      (fun _ _ _ _ => trivial) fun s d hshape _ hneeds => by
        obtain ⟨dep, -, -, hfind, -⟩ := id hneeds
        obtain ⟨fuel, s', b, hrun, hshape'⟩ := ih _ (hlt hneeds) (f := .automarked) hshape (newest_some hfind).1 rfl rfl
        exact ⟨fuel, s', b, hrun, hshape', trivial⟩
    exact ⟨fuel, s', b, hrun, hshape'⟩

end Env

end Ends

/-! ## Runs -/

/-- The packages from one on, through `next` and `alternative`, so many levels deep. -/
def flatten (s : State ι) : ℕ → Option ι → Option (List ι)
  | _, none => some []
  | 0, some _ => none
  | n + 1, some p =>
    (flatten s n (s.alternative p)).bind fun as => (flatten s n (s.next p)).map fun ps => p :: (as ++ ps)

/-- Every package is reached exactly once, and linked from where its link says. -/
structure Listed (s : State ι) : Prop where
  once : ∃ n l, flatten s n s.availablepackages = some l ∧ l.Nodup ∧ ∀ p, p ∈ l
  link : ∀ p, s.read (s.link p) = some p

/-- A call. -/
inductive Op (ι : Type)
  | mark (package : ι) (markflag : Marks)
  | unmark (package : ι) (markflag : Marks)

namespace Env

variable (env : Env ι)

/-- A call ends, with this state. -/
def Call (s : State ι) : Op ι → State ι → Prop
  | .mark p f, s' => ∃ fuel b, env.markPackage fuel s p f = some (s', b)
  | .unmark p f, s' => ∃ l m, s.list = some l ∧ env.unmarkPackage l s.marks p f = some m ∧ s' = { s with marks := m }

/-- The marked versions of a package have its dependencies too. -/
def VersionsAgree (m : ι → Marks) (p : ι) : Prop :=
  ∀ o, o ≠ p → (m o).any = true → env.name o = env.name p →
    (∀ n, env.Requires p n → env.Requires o n) ∧ ∀ n, env.ConflictsWith p n → env.ConflictsWith o n

/-- A package that is not trusted is an alternative of one that is. -/
def Outranked (s : State ι) (p : ι) : Prop :=
  ∃ root, rootForAlt s p = some root ∧ root ≠ p ∧ (env.package root).trusted = true ∧ (env.package p).trusted = false

/-- A call that does not go wrong: one to unmark, one that returns at once, or one to mark a package of the list whose
marked versions have its dependencies. -/
def Meets (l : List ι) (s : State ι) : Op ι → Prop
  | .mark p f => env.updating = true ∨ (s.marks p).any = true ∨ ¬env.Markable p ∨ env.Outranked s p ∨
    (f.any = true ∧ p ∈ l ∧ env.Findable p ∧ env.VersionsAgree s.marks p)
  | .unmark _ _ => True

/-- The states after calls that do not go wrong. -/
def Run (l : List ι) : State ι → State ι → Prop :=
  Relation.ReflTransGen fun s s' => ∃ op, env.Meets l s op ∧ env.Call s op s'

end Env

section Run

variable {env : Env ι} {l : List ι} {s s' : State ι} {p : ι} {f : Marks}

omit [Fintype ι] [DecidableEq ι] in
theorem walk_length {next : ι → Option ι} {n : ℕ} {h : Option ι} (hw : walk next n h = some l) {m : ℕ}
    (hm : l.length ≤ m) : walk next m h = some l := by
  induction n generalizing h l m with
  | zero =>
    cases h with
    | none =>
      cases hw
      cases m <;> rfl
    | some p => cases hw
  | succ n ih =>
    cases h with
    | none =>
      cases hw
      cases m <;> rfl
    | some p =>
      obtain ⟨ps, hps, rfl⟩ := map_eq_some_iff.mp hw
      cases m with
      | zero => cases hm
      | succ m =>
        rw [walk, ih hps (Nat.le_of_succ_le_succ hm), map_some]

omit [Fintype ι] [DecidableEq ι] in
/-- The list is a part of what is reached. -/
theorem walk_of_flatten {n : ℕ} {h : Option ι} {L : List ι} (hL : flatten s n h = some L) :
    ∃ l, walk s.next n h = some l ∧ l.Sublist L := by
  induction n generalizing h L with
  | zero =>
    cases h with
    | none => exact ⟨[], rfl, nil_sublist L⟩
    | some p => cases hL
  | succ n ih =>
    cases h with
    | none => exact ⟨[], rfl, nil_sublist L⟩
    | some p =>
      obtain ⟨as, -, hL⟩ := bind_eq_some_iff.mp hL
      obtain ⟨ps, hps, rfl⟩ := map_eq_some_iff.mp hL
      obtain ⟨l, hl, hsub⟩ := ih hps
      exact ⟨p :: l, by rw [walk, hl, map_some], (hsub.trans (sublist_append_right as ps)).cons_cons p⟩

omit [DecidableEq ι] in
theorem walk_card {n : ℕ} {h : Option ι} {L : List ι} (hL : flatten s n h = some L) (hnodup : L.Nodup) :
    ∃ l, walk s.next (Fintype.card ι) h = some l ∧ l.Sublist L := by
  obtain ⟨l, hl, hsub⟩ := walk_of_flatten hL
  exact ⟨l, walk_length hl (hnodup.sublist hsub).length_le_card, hsub⟩

theorem findRoot_of_flatten {n : ℕ} {h : Option ι} {L : List ι} (hL : flatten s n h = some L) (hnodup : L.Nodup)
    (hl : walk s.next n h = some l) (hp : p ∈ l) : findRoot s p l = some p := by
  induction n generalizing h L l with
  | zero =>
    cases h with
    | none =>
      cases hl
      cases hp
    | some q => cases hL
  | succ n ih =>
    cases h with
    | none =>
      cases hl
      cases hp
    | some q =>
      obtain ⟨as, has, hL⟩ := bind_eq_some_iff.mp hL
      obtain ⟨ps, hps, rfl⟩ := map_eq_some_iff.mp hL
      obtain ⟨t, ht, rfl⟩ := map_eq_some_iff.mp hl
      rw [findRoot]
      by_cases hqp : q = p
      · rw [if_pos hqp, hqp]
      rw [if_neg hqp]
      have hpt : p ∈ t := (mem_cons.mp hp).resolve_left (Ne.symm hqp)
      obtain ⟨-, hrest⟩ := nodup_cons.mp hnodup
      obtain ⟨hnas, hnps, hdisjoint⟩ := nodup_append'.mp hrest
      obtain ⟨as', has', hsub⟩ := walk_card has hnas
      obtain ⟨t', ht', hsub'⟩ := walk_of_flatten hps
      obtain rfl : t = t' := some_inj.mp (ht.symm.trans ht')
      rw [show s.alternatives q = some as' from has', bind_some,
        if_neg fun hpas => hdisjoint (hsub.subset hpas) (hsub'.subset hpt)]
      exact ih hps hnps ht hpt

theorem Listed.shape (h : Listed s) : ∃ l, Shape s l := by
  obtain ⟨n, L, hL, hnodup, -⟩ := h.once
  obtain ⟨l, hl, hsub⟩ := walk_of_flatten hL
  have hlist : s.list = some l := walk_length hl (hnodup.sublist hsub).length_le_card
  refine ⟨l, hlist, fun p hp => ?_⟩
  rw [rootForAlt, hlist, bind_some]
  exact findRoot_of_flatten hL hnodup hl hp

omit [Fintype ι] [DecidableEq ι] in
theorem flatten_marks (s : State ι) (m : ι → Marks) (n : ℕ) (h : Option ι) :
    flatten { s with marks := m } n h = flatten s n h := by
  induction n generalizing h with
  | zero => cases h <;> rfl
  | succ n ih =>
    cases h with
    | none => rfl
    | some p => simp only [flatten, ih]

omit [Fintype ι] [DecidableEq ι] in
theorem Listed.marks (h : Listed s) (m : ι → Marks) : Listed { s with marks := m } := by
  obtain ⟨n, L, hL, hnodup, hall⟩ := h.once
  refine ⟨⟨n, L, (flatten_marks s m n _).trans hL, hnodup, hall⟩, fun p => ?_⟩
  have := h.link p
  cases hlink : s.link p with
  | available => rwa [hlink] at this
  | next q => rwa [hlink] at this
  | alternative q => rwa [hlink] at this

namespace Env

/-- What every state of a run is. -/
structure Good (env : Env ι) (l : List ι) (s : State ι) : Prop where
  listed : Listed s
  shape : Shape s l
  own : env.Own l s.marks
  consistent : env.Consistent s.marks

theorem Good.settled (h : env.Good l s) (hs : env.Settled l s s') : env.Good l s' := by
  refine ⟨?_, hs.shape h.shape, hs.better.own h.own, hs.better.consistent h.own h.consistent⟩
  rw [hs.same]
  exact h.listed.marks _

/-- A call to mark a package of the list whose marked versions have its dependencies. -/
theorem Good.mark (h : env.Good l s) (hs : env.Simple l) (hup : env.updating = false) (hf : f.any = true)
    (hmem : p ∈ l) (hfind : env.Findable p) (hagree : env.VersionsAgree s.marks p) {fuel : ℕ} {b : Bool}
    (hrun : env.markPackage fuel s p f = some (s', b)) : env.Good l s' := by
  cases fuel with
  | zero => cases hrun
  | succ fuel =>
    by_cases hquick : (s.marks p).any = true ∨ ¬env.Markable p
    · obtain ⟨m, b', hsame, hrun'⟩ := markPackage_atOnce (f := f) hup hquick
      cases (hrun' fuel).symm.trans hrun
      exact h.settled ⟨rfl, .of_any hsame⟩
    obtain ⟨hmarked, hmark⟩ := not_or.mp hquick
    obtain ⟨hsig, hfile⟩ := not_not.mp hmark
    rw [markPackage, if_neg (by rw [hup]; exact false_ne_true), if_neg hmarked,
      if_neg (by rw [hsig]; exact false_ne_true), if_neg (by rw [hfile]; exact false_ne_true),
      h.shape.root p hmem, bind_some] at hrun
    dsimp only at hrun
    rw [if_pos rfl] at hrun
    obtain ⟨r, hloop, hreplacing⟩ := markListed_loop h.shape hrun
    cases hr : r.2 with
    | false =>
      exact h.settled (markListed_from hs hup (fun _ _ _ _ hready h => markPackage_spec hs hup hready rfl h) h.shape h.own
        hmem hfind hf hloop hr hrun).1
    | true =>
      obtain ⟨rfl, -⟩ := hreplacing hr
      by_cases hone : ∀ x, (s.marks x).any = true → env.name x = env.name p → x = p
      · have hnot := (exclude_loop hs hup hfind hloop).1.replacing fun x hx hname => by
          by_contra hxp
          exact hxp (hone x (flagged_other s.marks hxp ▸ hx) hname)
        cases hr.symm.trans hnot
      · push Not at hone
        obtain ⟨o, ho, hname, hop⟩ := hone
        obtain ⟨hcons, hown⟩ := exclude_replacing hs hup h.own hmem hfind hf hop ho hname (hagree o hop ho hname)
          h.consistent hloop
        exact ⟨h.listed.marks _, h.shape.marks _, hown, hcons⟩

theorem Good.unmark (h : env.Good l s) (hs : env.Simple l) {m : ι → Marks}
    (hrun : env.unmarkPackage l s.marks p f = some m) : env.Good l { s with marks := m } :=
  h.settled ⟨rfl, (unmark_spec hrun).1.better hs⟩

theorem markPackage_of_updating (hup : env.updating = true) {fuel : ℕ} {r : State ι × Bool}
    (h : env.markPackage fuel s p f = some r) : r = (s, false) := by
  cases fuel with
  | zero => cases h
  | succ fuel =>
    rw [markPackage, if_pos hup] at h
    exact (some_inj.mp h).symm

/-- An alternative that is trusted less than its root is refused. -/
theorem markPackage_of_outranked (hup : env.updating = false) (hmarked : ¬(s.marks p).any = true) (hmark : env.Markable p)
    (hout : env.Outranked s p) (fuel : ℕ) : env.markPackage (fuel + 1) s p f = some (s, false) := by
  obtain ⟨root, hroot, hne, htrusted, hnot⟩ := hout
  rw [markPackage, if_neg (by rw [hup]; exact false_ne_true), if_neg hmarked,
    if_neg (by rw [hmark.1]; exact false_ne_true), if_neg (by rw [hmark.2]; exact false_ne_true), hroot,
    bind_some]
  dsimp only
  rw [if_neg hne, if_pos (by rw [htrusted, hnot]; rfl)]

/-- A step of a run. -/
theorem Good.call (h : env.Good l s) (hs : env.Simple l) {op : Op ι} (hmeets : env.Meets l s op)
    (hcall : env.Call s op s') : env.Good l s' := by
  cases op with
  | unmark p f =>
    obtain ⟨l', m, hl', hrun, rfl⟩ := hcall
    obtain rfl : l = l' := some_inj.mp (h.shape.list.symm.trans hl')
    exact h.unmark hs hrun
  | mark p f =>
    obtain ⟨fuel, b, hrun⟩ := hcall
    by_cases hup : env.updating = true
    · cases markPackage_of_updating hup hrun
      exact h
    have hup := eq_false_of_ne_true hup
    cases fuel with
    | zero => cases hrun
    | succ fuel =>
      by_cases hquick : (s.marks p).any = true ∨ ¬env.Markable p
      · obtain ⟨m, b', hsame, hrun'⟩ := markPackage_atOnce (f := f) hup hquick
        cases (hrun' fuel).symm.trans hrun
        exact h.settled ⟨rfl, .of_any hsame⟩
      obtain ⟨hmarked, hmark⟩ := not_or.mp hquick
      rcases hmeets with hup' | hmarked' | hmark' | hout | ⟨hf, hmem, hfind, hagree⟩
      · cases hup.symm.trans hup'
      · exact absurd hmarked' hmarked
      · exact absurd hmark' hmark
      · cases (markPackage_of_outranked hup hmarked (not_not.mp hmark) hout fuel).symm.trans hrun
        exact h
      · exact h.mark hs hup hf hmem hfind hagree hrun

/-- A call of a run ends. -/
theorem Good.ends (h : env.Good l s) (hs : env.Simple l) (hacyclic : env.Acyclic l) {op : Op ι}
    (hmeets : env.Meets l s op) : ∃ s', env.Call s op s' := by
  cases op with
  | unmark p f =>
    obtain ⟨m, hrun, -⟩ := env.unmarkPackage_spec l s.marks p f
    exact ⟨_, l, m, h.shape.list, hrun, rfl⟩
  | mark p f =>
    by_cases hup : env.updating = true
    · exact ⟨s, 1, false, if_pos hup⟩
    have hup := eq_false_of_ne_true hup
    by_cases hquick : (s.marks p).any = true ∨ ¬env.Markable p
    · obtain ⟨m, b, -, hrun⟩ := markPackage_atOnce (f := f) hup hquick
      exact ⟨_, 1, b, hrun 0⟩
    obtain ⟨hmarked, hmark⟩ := not_or.mp hquick
    rcases hmeets with hup' | hmarked' | hmark' | hout | ⟨hf, hmem, -, -⟩
    · cases hup.symm.trans hup'
    · exact absurd hmarked' hmarked
    · exact absurd hmark' hmark
    · exact ⟨s, 1, false, markPackage_of_outranked hup hmarked (not_not.mp hmark) hout 0⟩
    · obtain ⟨fuel, s', b, hrun⟩ := mark_ends hs hup hacyclic h.shape hmem hf
      exact ⟨s', fuel, b, hrun⟩

end Env

/-- In a run of calls that do not go wrong, every call ends, every package stays in the list once, and the marks stay
consistent. -/
theorem markPackage_consistent (env : Env ι) (s₀ : State ι) (l : List ι) (hl : s₀.list = some l) (hlisted : Listed s₀)
    (hsimple : env.Simple l) (hacyclic : env.Acyclic l) (hown : env.Own l s₀.marks) (hcons : env.Consistent s₀.marks)
    (s : State ι) (hrun : env.Run l s₀ s) :
    Listed s ∧ env.Consistent s.marks ∧ ∀ op, env.Meets l s op → ∃ s', env.Call s op s' := by
  suffices h : env.Good l s from ⟨h.listed, h.consistent, fun op => h.ends hsimple hacyclic⟩
  obtain ⟨l', hshape⟩ := hlisted.shape
  obtain rfl : l = l' := Option.some_inj.mp (hl.symm.trans hshape.list)
  induction hrun with
  | refl => exact ⟨hlisted, hshape, hown, hcons⟩
  | tail _ hstep ih =>
    obtain ⟨op, hmeets, hcall⟩ := hstep
    exact ih.call hsimple hmeets hcall

end Run

/-- A package of one letter, with what it requires. -/
def plainPackage (name version : List QByte) (requires : List (List QByte)) : Package :=
  { name := name, version := version, arch := none, gamedir := [], fsroot := 0
    deps := requires.map fun n => ⟨.require, n⟩, engine := false, trusted := false }

/-- An environment that refuses nothing. -/
def plainEnv (package : ι → Package) : Env ι :=
  { package := package, updating := false, thisArch := [], signatureOkay := fun _ => true, checkFile := fun _ _ => false
    checkPackageFeatures := fun _ => true }

/-- Two packages, the first of which requires the second. -/
def requiring : Env (Fin 2) := plainEnv fun
  | 0 => plainPackage [0x61] [] [[0x62]]
  | 1 => plainPackage [0x62] [] []

/-- Neither is marked. -/
def unmarked : State (Fin 2) :=
  { availablepackages := some 0, next := fun p => if p = 0 then some 1 else none, alternative := fun _ => none
    link := fun p => if p = 0 then .available else .next 0, marks := fun _ => .none }

theorem markPackage_consistent_requiring : ∃ s, requiring.Run [0, 1] unmarked s ∧ (s.marks 1).any = true ∧ Listed s ∧
    requiring.Consistent s.marks ∧ ∀ op, requiring.Meets [0, 1] s op → ∃ s', requiring.Call s op s' := by
  have hnone (p : Fin 2) : (unmarked.marks p).any = false := rfl
  have hrequires {p : Fin 2} {n : List QByte} (h : requiring.Requires p n) : p = 0 ∧ n = [0x62] := by
    obtain ⟨dep, hdep, -, rfl⟩ := h
    revert p dep
    decide
  have hneeds {p d : Fin 2} (h : requiring.Needs [0, 1] p d) : p = 0 ∧ d = 1 := by
    obtain ⟨dep, hdep, -, hfind, -⟩ := h
    revert p dep d
    decide
  have hplain : ∀ p, ∀ dep ∈ requiring.deps p, dep.dtype = .require ∧ dep.name = [0x62] := by decide
  have hsimple : requiring.Simple [0, 1] := by
    refine ⟨fun p dep hdep _ => ?_, fun p n h _ => ⟨1, ?_, rfl, rfl⟩⟩
    · rw [(hplain p dep hdep).2, Plain]
      decide
    · rw [(hrequires h).2]
      decide
  have hacyclic : requiring.Acyclic [0, 1] := fun e h => by
    obtain ⟨x, hx, -⟩ := Relation.TransGen.head'_iff.mp h
    obtain ⟨y, -, hy⟩ := Relation.TransGen.tail'_iff.mp h
    exact absurd ((hneeds hx).1.symm.trans (hneeds hy).2) (by decide)
  have hcons : requiring.Consistent unmarked.marks :=
    ⟨fun a _ h => Bool.false_ne_true ((hnone a).symm.trans h.2.1),
      fun a _ _ h => Bool.false_ne_true ((hnone a).symm.trans h.2.1),
      fun a _ h => Bool.false_ne_true ((hnone a).symm.trans h.1)⟩
  have hown : requiring.Own [0, 1] unmarked.marks := fun p hp => absurd ((hnone p).symm.trans hp) Bool.false_ne_true
  have hlisted : Listed unmarked := ⟨⟨3, [0, 1], by decide, by decide, by decide⟩, by decide⟩
  have hmeets : requiring.Meets [0, 1] unmarked (.mark 0 .usermarked) :=
    .inr <| .inr <| .inr <| .inr ⟨rfl, by decide, fun _ _ _ _ _ => rfl,
      fun o _ ho _ => absurd ((hnone o).symm.trans ho) Bool.false_ne_true⟩
  have hmarks : ((requiring.markPackage 2 unmarked 0 .usermarked).map fun r => (r.1.marks 1).any) = some true := by decide
  obtain ⟨⟨s, b⟩, hs, hb⟩ := Option.map_eq_some_iff.mp hmarks
  have hrun : requiring.Run [0, 1] unmarked s := .single ⟨_, hmeets, 2, b, hs⟩
  exact ⟨s, hrun, hb,
    markPackage_consistent requiring unmarked [0, 1] (by decide) hlisted hsimple hacyclic hown hcons s hrun⟩

/-- Two versions of a package, the second of which requires another package. -/
def versions : Env (Fin 3) := plainEnv fun
  | 0 => plainPackage [0x61] [0x31] []
  | 1 => plainPackage [0x61] [0x32] [[0x62]]
  | 2 => plainPackage [0x62] [] []

/-- The first version is marked. -/
def firstVersion : State (Fin 3) :=
  { availablepackages := some 0, next := fun p => if p = 0 then some 1 else if p = 1 then some 2 else none
    alternative := fun _ => none, link := fun p => if p = 0 then .available else if p = 1 then .next 0 else .next 1
    marks := fun p => if p = 0 then .usermarked else .none }

/-- The second version replaces the first one, and what it requires is not marked. -/
theorem markPackage_inconsistent : Listed firstVersion ∧ versions.Consistent firstVersion.marks ∧
    ∃ s, versions.markPackage 2 firstVersion 1 .usermarked = some (s, true) ∧ ¬versions.Consistent s.marks := by
  have hfirst : ∀ p, (firstVersion.marks p).any = true → p = 0 := by decide
  have hdeps : versions.deps 0 = [] := rfl
  refine ⟨⟨⟨4, [0, 1, 2], by decide, by decide, by decide⟩, by decide⟩,
    ⟨fun a b h => ?_, fun a b n h => ?_, fun a n h => ?_⟩,
    ?_⟩
  · exact h.1 ((hfirst a h.2.1).trans (hfirst b h.2.2.1).symm)
  · exact h.1 ((hfirst a h.2.1).trans (hfirst b h.2.2.1).symm)
  · obtain ⟨dep, hdep, -⟩ := h.2.1
    rw [hfirst a h.1, hdeps] at hdep
    cases hdep
  · have hmarks : ((versions.markPackage 2 firstVersion 1 .usermarked).map fun r =>
        (r.2, (r.1.marks 0).any, (r.1.marks 1).any, (r.1.marks 2).any)) = some (true, false, true, false) := by decide
    obtain ⟨⟨s, b⟩, hs, heq⟩ := Option.map_eq_some_iff.mp hmarks
    obtain ⟨rfl, h0, h1, h2⟩ : b = true ∧ (s.marks 0).any = false ∧ (s.marks 1).any = true ∧ (s.marks 2).any = false := by
      simpa only [Prod.mk.injEq] using heq
    refine ⟨s, hs, fun hcons => hcons.unmet 1 [0x62] ⟨h1, ⟨_, .head _, rfl, rfl⟩, ⟨2, by decide, rfl, rfl⟩, ?_⟩⟩
    rintro ⟨x, hx, hfits⟩
    have hbar : ∀ x, versions.fits (wanted [0x62]) x = true → x = 2 := by decide
    rw [hbar x hfits, h2] at hx
    cases hx

end Packages

end FteQuake
