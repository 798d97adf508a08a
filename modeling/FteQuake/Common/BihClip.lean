import FteQuake.Lib.Numerals
import FteQuake.Lib.OptionLoop
import Mathlib.Data.Fin.VecNotation
import Mathlib.Data.Fin.Tuple.Reflection
import Mathlib.Algebra.Order.Field.Basic
import Mathlib.Data.Rat.Lemmas
import Mathlib.Algebra.Order.Ring.Rat
import Mathlib.Tactic.Linarith
import Mathlib.Tactic.Ring
import Mathlib.Tactic.FieldSimp
import Mathlib.Tactic.NormNum

/-!
# Clipping a move against a solid

`com_bih.c` over the rationals: how a swept box is set up, and how it is clipped against a brush and against a triangle.

The planes of a solid, pushed out by the box, say at which positions the box is in the solid (`inside`). A clip lowers the
fraction of the move to a number that does not depend on what it was (`clip_key`), and where it lowers it the box is in the
solid at that fraction (`clipValue_inside`).
-/

namespace FteQuake

namespace Bih

/-! ## Vectors -/

/-- `vec3_t`. -/
abbrev Vec := Fin 3 → ℚ

def dotProduct (x y : Vec) : ℚ := x 0 * y 0 + x 1 * y 1 + x 2 * y 2

def crossProduct (x y : Vec) : Vec :=
  ![x 1 * y 2 - x 2 * y 1, x 2 * y 0 - x 0 * y 2, x 0 * y 1 - x 1 * y 0]

/-- The unit vector of an axis. -/
def unit (a : Fin 3) : Vec := fun i => if i = a then 1 else 0

/-- `struct bihbox_s`. -/
structure Box where
  min : Vec
  max : Vec

/-- `AddPointToBounds`. -/
def addPointToBounds (v : Vec) (b : Box) : Box := ⟨fun i => min (b.min i) (v i), fun i => max (b.max i) (v i)⟩

/-- `FLT_MAX`. -/
def fltMax : ℚ := (2 ^ 24 - 1) * 2 ^ 104

/-- `ClearBounds`. -/
def clearBounds : Box := ⟨fun _ => fltMax, fun _ => -fltMax⟩

/-- `BIH_BoundsIntersect`. -/
def boundsIntersect (mins1 maxs1 mins2 maxs2 : Vec) : Bool :=
  decide (mins1 0 ≤ maxs2 0) && decide (mins1 1 ≤ maxs2 1) && decide (mins1 2 ≤ maxs2 2) &&
    decide (mins2 0 ≤ maxs1 0) && decide (mins2 1 ≤ maxs1 1) && decide (mins2 2 ≤ maxs1 2)

/-- What of `mplane_t` is read here. -/
structure Plane where
  normal : Vec
  dist : ℚ
  type : ℕ

/-- `PlaneDiff`. -/
def planeDiff (p : Vec) (plane : Plane) : ℚ :=
  (match plane.type with
    | 0 => p 0
    | 1 => p 1
    | 2 => p 2
    | _ => dotProduct p plane.normal) - plane.dist

/-! ## Solids -/

/-- `q2cbrush_t`, with the planes of its sides. -/
structure Brush where
  contents : BitVec 32
  absmins : Vec
  absmaxs : Vec
  brushside : List Plane

/-- The corners of a triangle. -/
structure Triangle where
  p1 : Vec
  p2 : Vec
  p3 : Vec

inductive Solid
  | brush (b : Brush)
  | triangle (t : Triangle)

/-- `struct bihdata_s`. -/
structure Data where
  contents : BitVec 32
  solid : Solid

/-- The globals and cvars that the clips read, and `VectorNormalize`, which gives the length and the direction. -/
structure Env where
  /-- `bih_sourceclip` -/
  sourceclip : Bool
  /-- `pm_trisoup_bevels` -/
  trisoupBevels : Bool
  /-- `pm_rotatedboxhulls` -/
  rotatedboxhulls : Bool
  vectorNormalize : Vec → ℚ × Vec

/-! ## The move -/

inductive Shape
  | ispoint
  | isbox
  deriving DecidableEq

/-- What of `struct bihtrace_s` a trace does not change. -/
structure Move where
  bounds : Box
  size : Box
  expand : Vec
  negativedir : Fin 3 → Bool
  boxrotated : Bool
  boxaxis : Fin 3 → Vec
  shape : Shape
  hitcontents : BitVec 32
  startpos : Vec
  totalmove : Vec
  endpos : Vec

/-- How far the box reaches from its middle along the axes of the tree. -/
def extent (boxrotated : Bool) (boxaxis : Fin 3 → Vec) (size : Box) : Box :=
  if boxrotated then
    let bmax : Vec := fun a =>
      size.max 0 * |boxaxis 0 a| + size.max 1 * |boxaxis 1 a| + size.max 2 * |boxaxis 2 a|
    ⟨fun a => -bmax a, bmax⟩
  else size

/-- The bounds of a move from one position to another. -/
def moveBounds (shape : Shape) (ext : Box) (startpos endpos : Vec) : Box :=
  let bounds := match shape with
    | .ispoint => addPointToBounds endpos (addPointToBounds startpos clearBounds)
    | .isbox =>
      addPointToBounds (fun i => endpos i + ext.max i) (addPointToBounds (fun i => endpos i + ext.min i)
        (addPointToBounds (fun i => startpos i + ext.max i) (addPointToBounds (fun i => startpos i + ext.min i) clearBounds)))
  ⟨fun i => bounds.min i - 1, fun i => bounds.max i + 1⟩

/-- What `BIH_Trace` sets up, for a box. -/
def setUp (env : Env) (axis : Option (Fin 3 → Vec)) (start finish mins maxs : Vec) (contents : BitVec 32) : Move :=
  let boxrotated := axis.isSome && env.rotatedboxhulls
  let boxaxis : Fin 3 → Vec := match axis with
    | some axis => fun j i => axis i j
    | none => unit
  let rotate : Vec → Vec := match axis with
    | some axis => fun p i => dotProduct p (axis i)
    | none => id
  let point : Vec := fun i => (maxs i + mins i) * (1 / 2)
  let offset := if boxrotated then rotate point else point
  let startpos : Vec := fun i => rotate start i + offset i
  let endpos : Vec := fun i => rotate finish i + offset i
  let size : Box := ⟨fun i => mins i - point i, fun i => maxs i - point i⟩
  let shape : Shape := if ∀ i, size.min i = 0 ∧ size.max i = 0 then .ispoint else .isbox
  let ext := extent boxrotated boxaxis size
  { bounds := moveBounds shape ext startpos endpos
    size := size
    expand := match shape with
      | .ispoint => fun _ => 1 / 32
      | .isbox => fun i => (if ext.max i < -ext.min i then -ext.min i else ext.max i) + 1
    negativedir := fun i => decide (endpos i - startpos i < 0)
    boxrotated := boxrotated
    boxaxis := boxaxis
    shape := shape
    hitcontents := contents
    startpos := startpos
    totalmove := fun i => endpos i - startpos i
    endpos := endpos }

namespace Move

/-- The position at a fraction of the move. -/
def position (mv : Move) (t : ℚ) : Vec := fun i => mv.startpos i + t * mv.totalmove i

/-- The bounds at a position. -/
def boundsAt (mv : Move) (x : Vec) : Box := moveBounds mv.shape (extent mv.boxrotated mv.boxaxis mv.size) x x

/-- `calcdist`: the distance of a plane that is pushed out by the box. -/
def calcdist (mv : Move) (plane : Plane) : ℚ :=
  match mv.shape with
  | .isbox =>
    if mv.boxrotated then
      plane.dist + mv.size.max 0 * |dotProduct (mv.boxaxis 0) plane.normal|
        + mv.size.max 1 * |dotProduct (mv.boxaxis 1) plane.normal|
        + mv.size.max 2 * |dotProduct (mv.boxaxis 2) plane.normal|
    else
      plane.dist -
        dotProduct (fun j => if plane.normal j < 0 then mv.size.max j else mv.size.min j) plane.normal
  | .ispoint => plane.dist

end Move

/-! ## Clipping -/

/-- `DIST_EPSILON`. -/
def distEpsilon : ℚ := 1 / 32

/-- What of `trace_t` the clips write. -/
structure Trace where
  fraction : ℚ
  truefraction : ℚ
  startsolid : Bool
  allsolid : Bool
  plane : Plane
  contents : BitVec 32

/-- The trace before any clip. -/
def Trace.start : Trace :=
  { fraction := 1, truefraction := 1, startsolid := false, allsolid := false, plane := ⟨fun _ => 0, 0, 0⟩, contents := 0 }

/-- A plane, and how far a position is in front of it when it is pushed out. -/
structure Face where
  plane : Plane
  diff : Vec → ℚ
  affine : ∀ (x m : Vec) (t : ℚ), diff (fun i => x i + t * m i) = diff x + t * (diff (fun i => x i + m i) - diff x)

/-- A plane that is pushed out by the box. -/
def Face.pushed (mv : Move) (plane : Plane) : Face where
  plane := plane
  diff := fun x => dotProduct x plane.normal - mv.calcdist plane
  affine := by
    intro x m t
    simp only [dotProduct]
    ring

/-- The side of a box with its greatest coordinate on an axis. -/
def Face.above (mv : Move) (maxs : Vec) (i : Fin 3) : Face where
  plane := ⟨unit i, maxs i, 0⟩
  diff := fun x => x i - (maxs i - mv.size.min i)
  affine := by
    intro x m t
    ring

/-- The side of a box with its least coordinate on an axis. -/
def Face.below (mv : Move) (mins : Vec) (j : Fin 3) : Face where
  plane := ⟨fun i => -unit j i, -mins j, 0⟩
  diff := fun x => -x j - (-mins j - -mv.size.max j)
  affine := by
    intro x m t
    ring

/-- What the loop over the planes has found. `clipplane` is `NULL` at first, and not read then. -/
structure Clip where
  enterfrac : ℚ
  leavefrac : ℚ
  nearfrac : ℚ
  clipplane : Plane
  getout : Bool
  startout : Bool

/-- `-1`, or `NEVER_UPDATED` under Source's rules. -/
def never (sourceclip : Bool) : ℚ := if sourceclip then -9999 else -1

def Clip.start (sourceclip : Bool) : Clip :=
  { enterfrac := never sourceclip, leavefrac := 2, nearfrac := 0, clipplane := ⟨fun _ => 0, 0, 0⟩, getout := false
    startout := false }

/-- A plane with the distances of the start and the end of the move. It is `none` where the clip returns. -/
def clipPlane (sourceclip : Bool) (c : Clip) (plane : Plane) (d1 d2 : ℚ) : Option Clip :=
  let c := { c with getout := c.getout || decide (0 < d2), startout := c.startout || decide (0 < d1) }
  if (if sourceclip then 0 < d1 ∧ 0 < d2 else 0 < d1 ∧ d1 ≤ d2) then none
  else if d1 ≤ 0 ∧ d2 ≤ 0 then some c
  else if d2 < d1 then
    let f := if sourceclip then (d1 - distEpsilon) / (d1 - d2) else d1 / (d1 - d2)
    if c.enterfrac < f then
      some { c with enterfrac := f, nearfrac := (d1 - distEpsilon) / (d1 - d2), clipplane := plane }
    else some c
  else
    let f := if sourceclip then (d1 + distEpsilon) / (d1 - d2) else d1 / (d1 - d2)
    some (if f < c.leavefrac then { c with leavefrac := f } else c)

/-- What a clip does after the loop. -/
def Clip.finish (sourceclip : Bool) (contents : BitVec 32) (c : Clip) (tr : Trace) : Trace :=
  if c.startout = false then
    { tr with startsolid := true, allsolid := if c.getout then tr.allsolid else true }
  else if (if sourceclip then c.enterfrac < c.leavefrac else c.enterfrac ≤ c.leavefrac) ∧ never sourceclip < c.enterfrac ∧
      (if sourceclip then c.enterfrac < tr.truefraction else c.enterfrac ≤ tr.truefraction) then
    let enterfrac := if c.enterfrac < 0 then 0 else c.enterfrac
    { tr with
      fraction := if sourceclip then enterfrac else c.nearfrac
      truefraction := enterfrac
      plane := c.clipplane
      contents := contents }
  else tr

/-- The loop over the planes of a move. -/
def clipLoop (sourceclip : Bool) (mv : Move) (faces : List Face) : Option Clip :=
  faces.foldlM (fun c f => clipPlane sourceclip c f.plane (f.diff mv.startpos) (f.diff mv.endpos)) (Clip.start sourceclip)

/-- A clip of a move against planes. -/
def clipFaces (sourceclip : Bool) (mv : Move) (contents : BitVec 32) (faces : List Face) (tr : Trace) : Trace :=
  match clipLoop sourceclip mv faces with
  | none => tr
  | some c => c.finish sourceclip contents tr

/-- The planes of a brush. -/
def brushFaces (mv : Move) (b : Brush) : List Face := b.brushside.map (Face.pushed mv)

/-- `BIH_ClipBoxToBrush`. -/
def clipBoxToBrush (env : Env) (mv : Move) (b : Brush) (tr : Trace) : Trace :=
  if b.brushside = [] then tr else clipFaces env.sourceclip mv b.contents (brushFaces mv b) tr

namespace Triangle

def tmins (t : Triangle) : Vec := fun j => min (min (t.p1 j) (t.p2 j)) (t.p3 j)
def tmaxs (t : Triangle) : Vec := fun j => max (max (t.p1 j) (t.p2 j)) (t.p3 j)

/-- The vertices of the edges of `BIH_TriangleBevels`: where each starts, where it ends, and the one that is not on it. -/
def edges (t : Triangle) : List (Vec × Vec × Vec) := [(t.p1, t.p2, t.p3), (t.p2, t.p3, t.p1), (t.p3, t.p1, t.p2)]

/-- `BIH_TriangleBevels`. -/
def triangleBevels (env : Env) (t : Triangle) (face : Plane) : List Plane :=
  t.edges.flatMap fun e => (List.finRange 3).filterMap fun a =>
    let n := env.vectorNormalize (crossProduct (fun i => e.2.1 i - e.1 i) (unit a))
    if n.1 < 1 / 100000 then none
    else
      let d := dotProduct e.1 n.2
      let away := d < dotProduct e.2.2 n.2
      let normal : Vec := if away then fun i => -n.2 i else n.2
      let d := if away then -d else d
      let l := dotProduct normal face.normal
      some ⟨normal, if l < 0 then d - 4 * l else d, 0⟩

/-- The planes of a triangle: its front, the back of the four units behind it, its edges, and their bevels. -/
def planes (env : Env) (mv : Move) (t : Triangle) : List Plane :=
  let edge1 : Vec := fun i => t.p1 i - t.p2 i
  let edge2 : Vec := fun i => t.p3 i - t.p2 i
  let edge3 : Vec := fun i => t.p1 i - t.p3 i
  let normal := (env.vectorNormalize (crossProduct edge1 edge2)).2
  let front : Plane := ⟨normal, dotProduct t.p1 normal, 0⟩
  let normal2 := (env.vectorNormalize (crossProduct edge1 normal)).2
  let normal3 := (env.vectorNormalize (crossProduct normal edge2)).2
  let normal4 := (env.vectorNormalize (crossProduct normal edge3)).2
  [front, ⟨fun i => -normal i, -front.dist + 4, 0⟩, ⟨normal2, dotProduct t.p2 normal2, 0⟩,
    ⟨normal3, dotProduct t.p3 normal3, 0⟩, ⟨normal4, dotProduct t.p1 normal4, 0⟩] ++
    if mv.shape = .isbox ∧ env.trisoupBevels then t.triangleBevels env front else []

/-- The planes of a triangle with those of its extents, which only a box needs. -/
def faces (env : Env) (mv : Move) (t : Triangle) : List Face :=
  (t.planes env mv).map (Face.pushed mv) ++
    if mv.shape = .isbox then
      (List.finRange 3).map (Face.above mv t.tmaxs) ++ (List.finRange 3).map (Face.below mv t.tmins)
    else []

/-- The test of `BIH_ClipToTriangle` that the triangle is out of bounds. -/
def outOfBounds (t : Triangle) (bounds : Box) : Bool :=
  (List.finRange 3).any fun j => decide (bounds.max j + 1 / 8 < t.tmins j) || decide (t.tmaxs j < bounds.min j - 1 / 8)

end Triangle

/-- `BIH_ClipToTriangle`, without its test of the bounds. -/
def clipTriangle (env : Env) (mv : Move) (contents : BitVec 32) (t : Triangle) (tr : Trace) : Trace :=
  clipFaces false mv contents (t.faces env mv) tr

/-- `BIH_ClipToTriangle`. -/
def clipToTriangle (env : Env) (mv : Move) (contents : BitVec 32) (t : Triangle) (tr : Trace) : Trace :=
  if t.outOfBounds mv.bounds then tr else clipTriangle env mv contents t tr

/-- A clip of a move against what is in a leaf, with no test of bounds. -/
def clipData (env : Env) (mv : Move) (d : Data) (tr : Trace) : Trace :=
  if d.contents &&& mv.hitcontents = 0 then tr
  else
    match d.solid with
    | .brush b => clipBoxToBrush env mv b tr
    | .triangle t => clipTriangle env mv d.contents t tr

/-! ## What a clip does to the fraction -/

/-- How far from a plane a clip against a brush lets the box be in it. -/
def slack (sourceclip : Bool) : ℚ := if sourceclip then distEpsilon else 0

theorem slack_nonneg (sourceclip : Bool) : 0 ≤ slack sourceclip := by
  cases sourceclip with
  | false => exact le_rfl
  | true => norm_num [slack, distEpsilon]

theorem slack_le (sourceclip : Bool) : slack sourceclip ≤ 1 / 32 := by
  cases sourceclip <;> norm_num [slack, distEpsilon]

/-- The box is in the solid that the planes bound. -/
def Inside (sourceclip : Bool) (faces : List Face) (x : Vec) : Prop := ∀ f ∈ faces, f.diff x ≤ slack sourceclip

/-- What the loop knows of a plane that it has passed. -/
structure Passed (sourceclip : Bool) (d1 d2 : ℚ) (c : Clip) : Prop where
  front : ¬if sourceclip then 0 < d1 ∧ 0 < d2 else 0 < d1 ∧ d1 ≤ d2
  startout : 0 < d1 → c.startout = true
  side : (d1 ≤ 0 ∧ d2 ≤ 0) ∨
    (d2 < d1 ∧ (if sourceclip then (d1 - distEpsilon) / (d1 - d2) else d1 / (d1 - d2)) ≤ c.enterfrac) ∨
    (¬(d1 ≤ 0 ∧ d2 ≤ 0) ∧ ¬d2 < d1 ∧
      c.leavefrac ≤ if sourceclip then (d1 + distEpsilon) / (d1 - d2) else d1 / (d1 - d2))

/-- The loop narrows what it has found. -/
structure Narrows (c c' : Clip) : Prop where
  enter : c.enterfrac ≤ c'.enterfrac
  leave : c'.leavefrac ≤ c.leavefrac
  startout : c.startout = true → c'.startout = true

theorem Narrows.refl (c : Clip) : Narrows c c := ⟨le_rfl, le_rfl, id⟩

variable {sourceclip : Bool} {c c' : Clip} {d1 d2 : ℚ}

theorem Narrows.trans {c'' : Clip} (h : Narrows c c') (h' : Narrows c' c'') : Narrows c c'' :=
  ⟨h.enter.trans h'.enter, h'.leave.trans h.leave, fun hs => h'.startout (h.startout hs)⟩

theorem Passed.narrows (h : Passed sourceclip d1 d2 c) (hn : Narrows c c') :
    Passed sourceclip d1 d2 c' := by
  refine ⟨h.front, fun hd => hn.startout (h.startout hd), h.side.imp id (.imp ?_ ?_)⟩
  · rintro ⟨hlt, hle⟩
    exact ⟨hlt, hle.trans hn.enter⟩
  · rintro ⟨hnot, hlt, hle⟩
    exact ⟨hnot, hlt, hn.leave.trans hle⟩

/-- A step of the loop. -/
theorem clipPlane_spec {plane : Plane} (h : clipPlane sourceclip c plane d1 d2 = some c') :
    Narrows c c' ∧ Passed sourceclip d1 d2 c' ∧ (c'.startout = true → c.startout = true ∨ 0 < d1) := by
  unfold clipPlane at h
  dsimp only at h
  have hor {s : Bool} : (s || decide (0 < d1)) = true ↔ s = true ∨ 0 < d1 := by
    rw [Bool.or_eq_true, decide_eq_true_eq]
  by_cases hfront : if sourceclip then 0 < d1 ∧ 0 < d2 else 0 < d1 ∧ d1 ≤ d2
  · rw [if_pos hfront] at h
    cases h
  rw [if_neg hfront] at h
  by_cases hboth : d1 ≤ 0 ∧ d2 ≤ 0
  · rw [if_pos hboth] at h
    cases h
    exact ⟨⟨le_rfl, le_rfl, fun hs => hor.mpr (.inl hs)⟩, ⟨hfront, fun hd => hor.mpr (.inr hd), .inl hboth⟩, hor.mp⟩
  rw [if_neg hboth] at h
  by_cases henter : d2 < d1
  · rw [if_pos henter] at h
    generalize hf : (if sourceclip then (d1 - distEpsilon) / (d1 - d2) else d1 / (d1 - d2)) = f at h
    by_cases hlt : c.enterfrac < f
    · rw [if_pos hlt] at h
      cases h
      exact ⟨⟨hlt.le, le_rfl, fun hs => hor.mpr (.inl hs)⟩,
        ⟨hfront, fun hd => hor.mpr (.inr hd), .inr (.inl ⟨henter, hf.le⟩)⟩, hor.mp⟩
    · rw [if_neg hlt] at h
      cases h
      exact ⟨⟨le_rfl, le_rfl, fun hs => hor.mpr (.inl hs)⟩,
        ⟨hfront, fun hd => hor.mpr (.inr hd), .inr (.inl ⟨henter, hf.trans_le (not_lt.mp hlt)⟩)⟩, hor.mp⟩
  · rw [if_neg henter] at h
    generalize hf : (if sourceclip then (d1 + distEpsilon) / (d1 - d2) else d1 / (d1 - d2)) = f at h
    by_cases hlt : f < c.leavefrac
    · rw [if_pos hlt] at h
      cases h
      exact ⟨⟨le_rfl, hlt.le, fun hs => hor.mpr (.inl hs)⟩,
        ⟨hfront, fun hd => hor.mpr (.inr hd), .inr (.inr ⟨hboth, henter, hf.ge⟩)⟩, hor.mp⟩
    · rw [if_neg hlt] at h
      cases h
      exact ⟨⟨le_rfl, le_rfl, fun hs => hor.mpr (.inl hs)⟩,
        ⟨hfront, fun hd => hor.mpr (.inr hd), .inr (.inr ⟨hboth, henter, (not_lt.mp hlt).trans hf.ge⟩)⟩, hor.mp⟩

/-- Where the loop ends it has passed every plane. -/
theorem clipLoop_passed {mv : Move} {faces : List Face} (h : clipLoop sourceclip mv faces = some c) :
    ∀ f ∈ faces, Passed sourceclip (f.diff mv.startpos) (f.diff mv.endpos) c :=
  OptionLoop.rule_forall (R := Narrows) .refl .trans (fun hn hp => hp.narrows hn)
    (fun _ _ _ _ h => ⟨(clipPlane_spec h).1, (clipPlane_spec h).2.1⟩) h

/-- Where the move enters before it leaves it is in the solid. -/
theorem Passed.le_slack {t : ℚ} (h : Passed sourceclip d1 d2 c)
    (hle : if sourceclip then c.enterfrac < c.leavefrac else c.enterfrac ≤ c.leavefrac)
    (ht : t = if c.enterfrac < 0 then 0 else c.enterfrac) (ht1 : t ≤ 1) : d1 + t * (d2 - d1) ≤ slack sourceclip := by
  have ht0 : 0 ≤ t := by
    rw [ht]
    split
    · exact le_rfl
    · exact not_lt.mp (by assumption)
  have hte : c.enterfrac ≤ t := by
    rw [ht]
    split
    · exact le_of_lt (by assumption)
    · exact le_rfl
  rcases h.side with ⟨hd1, hd2⟩ | ⟨hlt, henter⟩ | ⟨hboth, hge, hleave⟩
  · refine le_trans ?_ (slack_nonneg sourceclip)
    nlinarith [mul_nonneg ht0 (neg_nonneg.mpr hd2), mul_nonneg (sub_nonneg.mpr ht1) (neg_nonneg.mpr hd1)]
  · have hpos : 0 < d1 - d2 := sub_pos.mpr hlt
    cases sourceclip with
    | false =>
      have hdiv : d1 ≤ t * (d1 - d2) := (div_le_iff₀ hpos).mp (henter.trans hte)
      simp only [slack, Bool.false_eq_true, if_false]
      linarith
    | true =>
      have hdiv : d1 - distEpsilon ≤ t * (d1 - d2) := (div_le_iff₀ hpos).mp (henter.trans hte)
      simp only [slack, if_true]
      linarith
  · -- it leaves through this plane, which it is behind at the start
    have hfront := h.front
    have hd1 : d1 ≤ 0 := by
      by_contra hpos
      have hd1 := not_le.mp hpos
      cases sourceclip with
      | false => exact hfront ⟨hd1, not_lt.mp hge⟩
      | true => exact hfront ⟨hd1, hd1.trans_le (not_lt.mp hge)⟩
    have hd2 : 0 < d2 := not_le.mp fun hd2 => hboth ⟨hd1, hd2⟩
    have hneg : d1 - d2 < 0 := by linarith
    by_cases hneg' : c.enterfrac < 0
    · rw [if_pos hneg'] at ht
      rw [ht]
      linarith [slack_nonneg sourceclip]
    · rw [if_neg hneg'] at ht
      cases sourceclip with
      | false =>
        have hdiv : d1 ≤ t * (d1 - d2) := (le_div_iff_of_neg hneg).mp (ht ▸ (hle.trans hleave))
        simp only [slack, Bool.false_eq_true, if_false]
        linarith
      | true =>
        have hdiv : d1 + distEpsilon < t * (d1 - d2) := (lt_div_iff_of_neg hneg).mp (ht ▸ (hle.trans_le hleave))
        have heps : (0 : ℚ) < distEpsilon := by norm_num [distEpsilon]
        simp only [slack, if_true]
        linarith

/-- A clip's own fraction, or 1 where it has none, and whether the move starts in the solid. -/
def Clip.value (sourceclip : Bool) : Option Clip → ℚ × Boolᵒᵈ
  | none => (1, OrderDual.toDual false)
  | some c =>
    if c.startout = false then (1, OrderDual.toDual true)
    else if (if sourceclip then c.enterfrac < c.leavefrac else c.enterfrac ≤ c.leavefrac) ∧
        never sourceclip < c.enterfrac then
      (if c.enterfrac < 0 then 0 else c.enterfrac, OrderDual.toDual false)
    else (1, OrderDual.toDual false)

namespace Trace

/-- What of a trace is compared: a lesser fraction comes first, and a start in a solid. -/
def key (tr : Trace) : ℚ × Boolᵒᵈ := (tr.truefraction, OrderDual.toDual tr.startsolid)

/-- The fraction is one. -/
def Valid (tr : Trace) : Prop := 0 ≤ tr.truefraction ∧ tr.truefraction ≤ 1

end Trace

theorem inf_false (b : Boolᵒᵈ) : b ⊓ OrderDual.toDual false = b := inf_eq_left.mpr (Bool.false_le _)

theorem inf_true (b : Boolᵒᵈ) : b ⊓ OrderDual.toDual true = OrderDual.toDual true := inf_eq_right.mpr (Bool.le_true _)

/-- A clip without a fraction and without a start in the solid changes nothing. -/
theorem Trace.key_inf {tr : Trace} (htr : tr.Valid) : tr.key ⊓ (1, OrderDual.toDual false) = tr.key := by
  rw [Trace.key, Prod.mk_inf_mk, inf_eq_left.mpr htr.2, inf_false]

theorem Clip.finish_key (sourceclip : Bool) (contents : BitVec 32) (c : Clip) {tr : Trace} (htr : tr.Valid) :
    (c.finish sourceclip contents tr).key = tr.key ⊓ Clip.value sourceclip (some c) := by
  have hone : tr.truefraction ⊓ 1 = tr.truefraction := inf_eq_left.mpr htr.2
  unfold finish value
  by_cases hsolid : c.startout = false
  · rw [if_pos hsolid]
    simp only [if_pos hsolid]
    rw [Trace.key, Trace.key, Prod.mk_inf_mk, hone, inf_true]
  rw [if_neg hsolid]
  simp only [if_neg hsolid]
  by_cases hhit : (if sourceclip then c.enterfrac < c.leavefrac else c.enterfrac ≤ c.leavefrac) ∧
      never sourceclip < c.enterfrac
  swap
  · rw [if_neg fun h => hhit ⟨h.1, h.2.1⟩, if_neg hhit]
    exact (Trace.key_inf htr).symm
  rw [if_pos hhit]
  by_cases hless : if sourceclip then c.enterfrac < tr.truefraction else c.enterfrac ≤ tr.truefraction
  · rw [if_pos ⟨hhit.1, hhit.2, hless⟩]
    have hle : c.enterfrac ≤ tr.truefraction := by
      cases sourceclip with
      | false => exact hless
      | true => exact le_of_lt hless
    have hmin : (if c.enterfrac < 0 then 0 else c.enterfrac) ≤ tr.truefraction := by
      split
      · exact htr.1
      · exact hle
    dsimp only [Trace.key]
    rw [Prod.mk_inf_mk, inf_eq_right.mpr hmin, inf_false]
  · rw [if_neg fun h => hless h.2.2]
    have hge : tr.truefraction ≤ if c.enterfrac < 0 then 0 else c.enterfrac := by
      have hle : tr.truefraction ≤ c.enterfrac := by
        cases sourceclip with
        | false => exact le_of_lt (not_le.mp hless)
        | true => exact not_lt.mp hless
      rw [if_neg (not_lt.mpr (htr.1.trans hle))]
      exact hle
    rw [Trace.key, Prod.mk_inf_mk, inf_eq_left.mpr hge, inf_false]

/-- A clip keeps the meet of what the trace was and of a value that does not depend on it. -/
theorem clipFaces_key (sourceclip : Bool) (mv : Move) (contents : BitVec 32) (faces : List Face) {tr : Trace}
    (htr : tr.Valid) : (clipFaces sourceclip mv contents faces tr).key =
      tr.key ⊓ Clip.value sourceclip (clipLoop sourceclip mv faces) := by
  unfold clipFaces
  cases clipLoop sourceclip mv faces with
  | none => exact (Trace.key_inf htr).symm
  | some c => exact c.finish_key sourceclip contents htr

theorem Clip.value_nonneg (sourceclip : Bool) (c : Option Clip) : 0 ≤ (Clip.value sourceclip c).1 := by
  cases c with
  | none => exact zero_le_one
  | some c =>
    unfold value
    dsimp only
    by_cases hsolid : c.startout = false
    · rw [if_pos hsolid]
      exact zero_le_one
    rw [if_neg hsolid]
    by_cases hhit : (if sourceclip then c.enterfrac < c.leavefrac else c.enterfrac ≤ c.leavefrac) ∧
        never sourceclip < c.enterfrac
    · rw [if_pos hhit]
      by_cases hneg : c.enterfrac < 0
      · rw [if_pos hneg]
      · rw [if_neg hneg]
        exact not_lt.mp hneg
    · rw [if_neg hhit]
      exact zero_le_one

/-- A move that has a fraction of its own for the planes, or starts behind them, is in the solid there. -/
theorem clipValue_inside (sourceclip : Bool) {mv : Move} (faces : List Face)
    (hend : ∀ i, mv.endpos i = mv.startpos i + mv.totalmove i) :
    ((Clip.value sourceclip (clipLoop sourceclip mv faces)).1 < 1 →
      Inside sourceclip faces (mv.position (Clip.value sourceclip (clipLoop sourceclip mv faces)).1)) ∧
    ((Clip.value sourceclip (clipLoop sourceclip mv faces)).2 = OrderDual.toDual true →
      Inside sourceclip faces (mv.position 0)) := by
  have hdiff (f : Face) (t : ℚ) : f.diff (mv.position t) =
      f.diff mv.startpos + t * (f.diff mv.endpos - f.diff mv.startpos) := by
    rw [funext hend]
    exact f.affine mv.startpos mv.totalmove t
  cases hloop : clipLoop sourceclip mv faces with
  | none => exact ⟨fun h => absurd h (lt_irrefl _), fun h => absurd h Bool.false_ne_true⟩
  | some c =>
    have hpassed := clipLoop_passed hloop
    unfold Clip.value
    dsimp only
    by_cases hsolid : c.startout = false
    · rw [if_pos hsolid]
      refine ⟨fun h => absurd h (lt_irrefl _), fun _ f hf => ?_⟩
      have hle : f.diff mv.startpos ≤ 0 := not_lt.mp fun hd => by
        have := (hpassed f hf).startout hd
        rw [hsolid] at this
        cases this
      rw [hdiff, zero_mul, add_zero]
      exact hle.trans (slack_nonneg sourceclip)
    rw [if_neg hsolid]
    by_cases hhit : (if sourceclip then c.enterfrac < c.leavefrac else c.enterfrac ≤ c.leavefrac) ∧
        never sourceclip < c.enterfrac
    · rw [if_pos hhit]
      refine ⟨fun h f hf => ?_, fun h => absurd h Bool.false_ne_true⟩
      rw [hdiff]
      exact (hpassed f hf).le_slack hhit.1 rfl h.le
    · rw [if_neg hhit]
      exact ⟨fun h => absurd h (lt_irrefl _), fun h => absurd h Bool.false_ne_true⟩

/-! ## Clips of leaves -/

/-- The box is in what is in a leaf, as the clip takes it. -/
def inside (env : Env) (mv : Move) (d : Data) (x : Vec) : Prop :=
  match d.solid with
  | .brush b => b.brushside ≠ [] ∧ Inside env.sourceclip (brushFaces mv b) x
  | .triangle t => Inside false (t.faces env mv) x

/-- What a clip of what is in a leaf has of its own. -/
def dataValue (env : Env) (mv : Move) (d : Data) : ℚ × Boolᵒᵈ :=
  if d.contents &&& mv.hitcontents = 0 then (1, OrderDual.toDual false)
  else
    match d.solid with
    | .brush b =>
      if b.brushside = [] then (1, OrderDual.toDual false)
      else Clip.value env.sourceclip (clipLoop env.sourceclip mv (brushFaces mv b))
    | .triangle t => Clip.value false (clipLoop false mv (t.faces env mv))

section Data

variable {env : Env} {mv : Move} {d : Data} {tr : Trace}

theorem clipData_key (htr : tr.Valid) : (clipData env mv d tr).key = tr.key ⊓ dataValue env mv d := by
  unfold clipData dataValue
  by_cases hmask : d.contents &&& mv.hitcontents = 0
  · rw [if_pos hmask, if_pos hmask, Trace.key_inf htr]
  rw [if_neg hmask, if_neg hmask]
  cases d.solid with
  | brush b =>
    dsimp only [clipBoxToBrush]
    by_cases hempty : b.brushside = []
    · rw [if_pos hempty, if_pos hempty, Trace.key_inf htr]
    · rw [if_neg hempty, if_neg hempty]
      exact clipFaces_key _ mv _ _ htr
  | triangle t => exact clipFaces_key false mv _ _ htr

theorem dataValue_nonneg (env : Env) (mv : Move) (d : Data) : 0 ≤ (dataValue env mv d).1 := by
  unfold dataValue
  by_cases hmask : d.contents &&& mv.hitcontents = 0
  · rw [if_pos hmask]
    exact zero_le_one
  rw [if_neg hmask]
  cases d.solid with
  | brush b =>
    dsimp only
    by_cases hempty : b.brushside = []
    · rw [if_pos hempty]
      exact zero_le_one
    · rw [if_neg hempty]
      exact Clip.value_nonneg _ _
  | triangle t => exact Clip.value_nonneg _ _

/-- A leaf with a fraction of its own, or one that the move starts in, has the mask's contents and the box in it there. -/
theorem dataValue_inside (env : Env) (d : Data) (hend : ∀ i, mv.endpos i = mv.startpos i + mv.totalmove i) :
    ((dataValue env mv d).1 < 1 →
      d.contents &&& mv.hitcontents ≠ 0 ∧ inside env mv d (mv.position (dataValue env mv d).1)) ∧
    ((dataValue env mv d).2 = OrderDual.toDual true →
      d.contents &&& mv.hitcontents ≠ 0 ∧ inside env mv d (mv.position 0)) := by
  unfold dataValue inside
  by_cases hmask : d.contents &&& mv.hitcontents = 0
  · rw [if_pos hmask]
    exact ⟨fun h => absurd h (lt_irrefl _), fun h => absurd h Bool.false_ne_true⟩
  rw [if_neg hmask]
  cases d.solid with
  | brush b =>
    dsimp only
    by_cases hempty : b.brushside = []
    · rw [if_pos hempty]
      exact ⟨fun h => absurd h (lt_irrefl _), fun h => absurd h Bool.false_ne_true⟩
    · rw [if_neg hempty]
      obtain ⟨hfrac, hsolid⟩ := clipValue_inside env.sourceclip (brushFaces mv b) hend
      exact ⟨fun h => ⟨hmask, hempty, hfrac h⟩, fun h => ⟨hmask, hempty, hsolid h⟩⟩
  | triangle t =>
    obtain ⟨hfrac, hsolid⟩ := clipValue_inside false (t.faces env mv) hend
    exact ⟨fun h => ⟨hmask, hfrac h⟩, fun h => ⟨hmask, hsolid h⟩⟩

/-- A leaf that the box is not in before the fraction of the trace does not matter to it. -/
theorem key_le_dataValue (hend : ∀ i, mv.endpos i = mv.startpos i + mv.totalmove i) (htr : tr.Valid)
    (hout : d.contents &&& mv.hitcontents ≠ 0 → ∀ t, 0 ≤ t → t ≤ tr.truefraction → ¬inside env mv d (mv.position t)) :
    tr.key ≤ dataValue env mv d := by
  obtain ⟨hfrac, hsolid⟩ := dataValue_inside env d hend
  refine Prod.le_def.mpr ⟨?_, ?_⟩
  · by_contra hlt
    have hlt := not_le.mp hlt
    obtain ⟨hmask, hin⟩ := hfrac (hlt.trans_le htr.2)
    exact hout hmask _ (dataValue_nonneg env mv d) hlt.le hin
  · cases hv : OrderDual.ofDual (dataValue env mv d).2 with
    | false =>
      rw [show (dataValue env mv d).2 = OrderDual.toDual false from hv]
      exact Bool.false_le _
    | true =>
      obtain ⟨hmask, hin⟩ := hsolid hv
      exact absurd hin (hout hmask 0 le_rfl htr.1)

end Data

/-! ## What a move covers -/

/-- What the set-up of a move ensures. -/
structure Move.Swept (mv : Move) : Prop where
  endpos : ∀ i, mv.endpos i = mv.startpos i + mv.totalmove i
  negativedir : ∀ i, mv.negativedir i = true ↔ mv.totalmove i < 0
  expand : ∀ i, 0 ≤ mv.expand i
  expandPoint : mv.shape = .ispoint → ∀ i, mv.expand i = 1 / 32
  expandBox : mv.shape = .isbox → mv.boxrotated = false → ∀ i,
    mv.size.min i = -mv.size.max i ∧ 0 ≤ mv.size.max i ∧ mv.expand i = mv.size.max i + 1
  reach : ∀ x i, (mv.boundsAt x).min i ≤ x i - mv.expand i ∧ x i + mv.expand i ≤ (mv.boundsAt x).max i
  bounds : mv.bounds = moveBounds mv.shape (extent mv.boxrotated mv.boxaxis mv.size) mv.startpos mv.endpos

theorem least_mono {c p q s e x : ℚ} (h : min s e ≤ x) :
    min (min (min (min c (s + p)) (s + q)) (e + p)) (e + q) ≤ min (min (min (min c (x + p)) (x + q)) (x + p)) (x + q) := by
  have hle (r k : ℚ) (hs : k ≤ s + r) (he : k ≤ e + r) : k ≤ x + r := by
    rcases min_le_iff.mp h with h | h
    · linarith
    · linarith
  refine le_min (le_min (le_min (le_min ?_ ?_) ?_) ?_) ?_
  · simp only [min_le_iff, le_refl, true_or]
  all_goals refine hle _ _ ?_ ?_ <;> simp only [min_le_iff, le_refl, true_or, or_true]

theorem greatest_mono {c p q s e x : ℚ} (h : x ≤ max s e) :
    max (max (max (max c (x + p)) (x + q)) (x + p)) (x + q) ≤ max (max (max (max c (s + p)) (s + q)) (e + p)) (e + q) := by
  have hle (r k : ℚ) (hs : s + r ≤ k) (he : e + r ≤ k) : x + r ≤ k := by
    rcases le_max_iff.mp h with h | h
    · linarith
    · linarith
  refine max_le (max_le (max_le (max_le ?_ ?_) ?_) ?_) ?_
  · simp only [le_max_iff, le_refl, true_or]
  all_goals refine hle _ _ ?_ ?_ <;> simp only [le_max_iff, le_refl, true_or, or_true]

/-- The bounds at a position are within those of a move that it lies on. -/
theorem moveBounds_mono (shape : Shape) (ext : Box) {s e x : Vec} {i : Fin 3} (hmin : min (s i) (e i) ≤ x i)
    (hmax : x i ≤ max (s i) (e i)) : (moveBounds shape ext s e).min i ≤ (moveBounds shape ext x x).min i ∧
      (moveBounds shape ext x x).max i ≤ (moveBounds shape ext s e).max i := by
  simp only [moveBounds]
  rw [sub_le_sub_iff_right, add_le_add_iff_right]
  cases shape with
  | ispoint =>
    have hmin' : min (min fltMax (s i)) (e i) ≤ x i :=
      (min_le_min_right _ (min_le_right _ _)).trans hmin
    have hmax' : x i ≤ max (max (-fltMax) (s i)) (e i) := hmax.trans (max_le_max_right _ (le_max_right _ _))
    exact ⟨le_min (le_min ((min_le_left _ _).trans (min_le_left _ _)) hmin') hmin',
      max_le (max_le ((le_max_left _ _).trans (le_max_left _ _)) hmax') hmax'⟩
  | isbox => exact ⟨least_mono hmin, greatest_mono hmax⟩

theorem Move.position_between {mv : Move} (hend : ∀ i, mv.endpos i = mv.startpos i + mv.totalmove i) {t : ℚ}
    (h0 : 0 ≤ t) (h1 : t ≤ 1) (i : Fin 3) : min (mv.startpos i) (mv.endpos i) ≤ mv.position t i ∧
      mv.position t i ≤ max (mv.startpos i) (mv.endpos i) := by
  rw [hend, Move.position]
  rcases le_total 0 (mv.totalmove i) with hm | hm
  · have hle : t * mv.totalmove i ≤ mv.totalmove i := mul_le_of_le_one_left hm h1
    have hge : 0 ≤ t * mv.totalmove i := mul_nonneg h0 hm
    exact ⟨min_le_iff.mpr (.inl (by linarith)), le_max_iff.mpr (.inr (by linarith))⟩
  · have hle : mv.totalmove i ≤ t * mv.totalmove i := by nlinarith
    have hge : t * mv.totalmove i ≤ 0 := mul_nonpos_of_nonneg_of_nonpos h0 hm
    exact ⟨min_le_iff.mpr (.inr (by linarith)), le_max_iff.mpr (.inl (by linarith))⟩

namespace Move.Swept

variable {mv : Move} {t : ℚ}

theorem boundsAt (h : mv.Swept) (h0 : 0 ≤ t) (h1 : t ≤ 1) (i : Fin 3) :
    mv.bounds.min i ≤ (mv.boundsAt (mv.position t)).min i ∧ (mv.boundsAt (mv.position t)).max i ≤ mv.bounds.max i := by
  rw [h.bounds]
  obtain ⟨hmin, hmax⟩ := position_between h.endpos h0 h1 i
  exact moveBounds_mono _ _ hmin hmax

theorem within (h : mv.Swept) (h0 : 0 ≤ t) (h1 : t ≤ 1) (i : Fin 3) :
    mv.bounds.min i ≤ mv.position t i - mv.expand i ∧ mv.position t i + mv.expand i ≤ mv.bounds.max i :=
  ⟨(h.boundsAt h0 h1 i).1.trans (h.reach _ i).1, (h.reach _ i).2.trans (h.boundsAt h0 h1 i).2⟩

end Move.Swept

/-- The box of a rotated move reaches as far to both sides. -/
theorem extent_rotated (boxaxis : Fin 3 → Vec) {size : Box} (hsize : ∀ i, 0 ≤ size.max i) (i : Fin 3) :
    (extent true boxaxis size).min i = -(extent true boxaxis size).max i ∧ 0 ≤ (extent true boxaxis size).max i := by
  refine ⟨rfl, ?_⟩
  have hterm (j : Fin 3) : 0 ≤ size.max j * |boxaxis j i| := mul_nonneg (hsize j) (abs_nonneg _)
  simp only [extent, if_true]
  linarith [hterm 0, hterm 1, hterm 2]

theorem setUp_swept (env : Env) (axis : Option (Fin 3 → Vec)) (start finish : Vec) {mins maxs : Vec}
    (hbox : ∀ i, mins i ≤ maxs i) (contents : BitVec 32) : (setUp env axis start finish mins maxs contents).Swept := by
  set mv := setUp env axis start finish mins maxs contents with hmv
  have hsize (i : Fin 3) : mv.size.min i = -mv.size.max i ∧ 0 ≤ mv.size.max i := by
    simp only [hmv, setUp]
    constructor
    · ring
    · linarith [hbox i]
  have hext (i : Fin 3) : (extent mv.boxrotated mv.boxaxis mv.size).min i =
      -(extent mv.boxrotated mv.boxaxis mv.size).max i ∧ 0 ≤ (extent mv.boxrotated mv.boxaxis mv.size).max i := by
    cases mv.boxrotated with
    | false => exact hsize i
    | true => exact extent_rotated mv.boxaxis (fun i => (hsize i).2) i
  have hpoint (h : mv.shape = .ispoint) (i : Fin 3) : mv.expand i = 1 / 32 := by
    change (match mv.shape with | .ispoint => fun _ => 1 / 32 | .isbox => _ : Vec) i = _
    rw [h]
  have hisbox (h : mv.shape = .isbox) (i : Fin 3) :
      mv.expand i = (extent mv.boxrotated mv.boxaxis mv.size).max i + 1 := by
    change (match mv.shape with | .ispoint => fun _ => 1 / 32 | .isbox => fun i =>
      (if (extent mv.boxrotated mv.boxaxis mv.size).max i < -(extent mv.boxrotated mv.boxaxis mv.size).min i then
        -(extent mv.boxrotated mv.boxaxis mv.size).min i else (extent mv.boxrotated mv.boxaxis mv.size).max i) + 1 :
      Vec) i = _
    rw [h]
    dsimp only
    rw [(hext i).1, neg_neg, if_neg (lt_irrefl _)]
  refine ⟨fun i => ?_, fun i => ?_, fun i => ?_, hpoint, fun h hrot i => ⟨(hsize i).1, (hsize i).2, ?_⟩, fun x i => ?_, rfl⟩
  · exact (add_sub_cancel (mv.startpos i) (mv.endpos i)).symm
  · exact decide_eq_true_iff
  · cases hshape : mv.shape with
    | ispoint =>
      rw [hpoint hshape]
      norm_num
    | isbox =>
      rw [hisbox hshape]
      linarith [(hext i).2]
  · rw [hisbox h, hrot]
    rfl
  · rw [Move.boundsAt]
    cases hshape : mv.shape with
    | ispoint =>
      rw [hpoint hshape]
      simp only [moveBounds, addPointToBounds]
      refine ⟨?_, ?_⟩
      · linarith [min_le_right (min (clearBounds.min i) (x i)) (x i)]
      · linarith [le_max_right (max (clearBounds.max i) (x i)) (x i)]
    | isbox =>
      rw [hisbox hshape]
      obtain ⟨hmin, hmax⟩ := hext i
      simp only [moveBounds, addPointToBounds]
      refine ⟨?_, ?_⟩
      · refine (sub_le_sub_right ((min_le_left _ _).trans (min_le_right _ _)) 1).trans (le_of_eq ?_)
        rw [hmin]
        ring
      · refine (le_of_eq ?_).trans (add_le_add_left (le_max_right _ _) 1)
        ring

end Bih

end FteQuake
