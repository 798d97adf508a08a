import FteQuake.Lib.Numerals
import Mathlib.Data.BitVec
import Mathlib.Data.Fin.VecNotation
import Mathlib.Logic.Function.Basic
import Mathlib.Tactic.FinCases
import Mathlib.Tactic.Linarith

/-!
# Players in an MVD

`SV_MVDWritePackets` of `sv_mvd.c`, which writes for each player of a frame the fields that differ from
what it remembers, and `ParsePlayerInfo` of `fteqtv/parse.c` (for a source that is not a QuakeWorld
server), which keeps what it read last.

`mvdPlayers_conveyed` says for which frames the proxy has after each frame what was recorded, and
`mvdPlayers_drift` is about a frame after which it has not: the origin is compared with coordinate `i` of
what is remembered, where `i` is the player, and what is remembered is not what was written.
-/

namespace FteQuake

open List Function

namespace MvdPlayers

/-- `qbyte`. -/
abbrev Byte := BitVec 8

/-! ## Numbers -/

/-- The arithmetic of `float` and `double` in the expressions of the two functions, and the formats of
coordinates and angles in a message. -/
structure Arith (F D : Type) where
  /-- `a == b` -/
  eq : F → F → Bool
  /-- `a < b` -/
  lt : D → D → Bool
  /-- `a >= b` -/
  ge : D → D → Bool
  /-- `time - sec` -/
  before : D → F → D
  /-- `(time - nexttime)/(nexttime - playertime)` -/
  fraction : D → D → D → F
  /-- `next + f*(next-cur)` -/
  extrapolate : F → F → F → F
  /-- `adjustangle(cur, next, 1.0+f)` -/
  adjustangle : F → F → F → F
  /-- an `int`, read as a `float` -/
  ofBits : BitVec 32 → F
  writeCoord : F → List Byte
  readCoord : List Byte → F
  coordsize : ℕ
  length_writeCoord : ∀ x, (writeCoord x).length = coordsize
  coordsize_le : coordsize ≤ 4
  /-- the short of `MSG_WriteAngle16` -/
  writeAngle16 : F → BitVec 16
  /-- `(ReadShort(m)/(float)0x10000)*360` -/
  readAngle16 : BitVec 16 → F

variable {F D : Type} (A : Arith F D)

/-! ## The writer -/

/-- `DF_ORIGINX`, as the number of its bit. -/
def dfOriginX : ℕ := 0
/-- `DF_ANGLEX`. -/
def dfAngleX : ℕ := 3
/-- `DF_EFFECTS`. -/
def dfEffects : ℕ := 6
/-- `DF_SKINNUM`. -/
def dfSkinnum : ℕ := 7
/-- `DF_DEAD`. -/
def dfDead : ℕ := 8
/-- `DF_GIB`. -/
def dfGib : ℕ := 9
/-- `DF_WEAPONFRAME`. -/
def dfWeaponframe : ℕ := 10
/-- `DF_MODEL`. -/
def dfModel : ℕ := 11

/-- `DF_RESET`: all fields. -/
def dfReset : BitVec 32 := 0xcff

/-- `MAX_QWMSGLEN`. -/
def maxQwmsglen : ℕ := 1450
/-- `DEMO_FRAMES`. -/
def demoFrames : ℕ := 64
/-- `svc_playerinfo`. -/
def svcPlayerinfo : Byte := 42

/-- `demoinfo_t`. -/
structure DemoInfo (F : Type) where
  origin : Fin 3 → F
  angles : Fin 3 → F
  weaponframe : BitVec 32
  skinnum : BitVec 32
  model : BitVec 32
  effects : BitVec 32

/-- `demo_client_t`. -/
structure DemoClient (F : Type) where
  info : DemoInfo F
  sec : F
  parsecount : ℕ
  fixangle : Bool
  cmdtime : F
  flags : BitVec 32
  frame : BitVec 32

/-- `demo_frame_t`. -/
structure DemoFrame (F D : Type) where
  clients : ℕ → DemoClient F
  time : D

/-- Of `demo_t`, what is recorded and remembered of the players; `maxNetClients` is that of
`recorder`. -/
structure Demo (F D : Type) where
  frames : ℕ → DemoFrame F D
  parsecount : ℕ
  lastwritten : ℕ
  playerreset : ℕ → Bool
  fixangletime : ℕ → F
  info : ℕ → DemoInfo F
  maxNetClients : ℕ

/-- Word `n` of a `demoinfo_t`, as a `float`. -/
def DemoInfo.word (info : DemoInfo F) : ℕ → F
  | 0 => info.origin 0
  | 1 => info.origin 1
  | 2 => info.origin 2
  | 3 => info.angles 0
  | 4 => info.angles 1
  | 5 => info.angles 2
  | 6 => A.ofBits info.weaponframe
  | 7 => A.ofBits info.skinnum
  | 8 => A.ofBits info.model
  | _ => A.ofBits info.effects

namespace Demo

variable (d : Demo F D)

/-- The frame that is written. -/
def frame : DemoFrame F D := d.frames (d.lastwritten % demoFrames)

/-- The client of a slot in the frame that is written. -/
def client (i : ℕ) : DemoClient F := d.frame.clients i

/-- Whether a slot is in the frame that is written. -/
def Valid (i : ℕ) : Prop := (d.client i).parsecount = d.lastwritten

instance (i : ℕ) : Decidable (d.Valid i) := inferInstanceAs (Decidable (_ = _))

/-- `demoinfo->origin[i]`, where `demoinfo` is that of slot `i`: behind `origin` come the other fields,
and behind these the next slots. -/
def compared (i : ℕ) : F := (d.info (i + i / 10)).word A (i % 10)

/-- The loop for the next frame of a client, for so many frames from `j` on: the client there, and its
time. -/
def findNext (cl : DemoClient F) (time : D) (i : ℕ) : ℕ → ℕ → D → Option (DemoClient F × D)
  | 0, _, _ => none
  | n + 1, j, nexttime =>
    if A.lt nexttime time then
      let nextframe := d.frames (j % demoFrames)
      let nextcl := nextframe.clients i
      if nextcl.parsecount ≠ j then none
      else if nextcl.fixangle then none
      else if nextcl.flags.getLsbD dfDead = false ∧ cl.flags.getLsbD dfDead then none
      else
        let nexttime := A.before nextframe.time nextcl.sec
        if A.ge nexttime time then some (nextcl, nexttime) else findNext cl time i n (j + 1) nexttime
    else none

/-- `nextcl` and `nexttime`, if they are valid. -/
def next (i : ℕ) : Option (DemoClient F × D) :=
  d.findNext A (d.client i) d.frame.time i (d.parsecount - (d.lastwritten + 1)) (d.lastwritten + 1)
    (A.before d.frame.time (d.client i).sec)

/-- `f`. -/
def lerp (i : ℕ) (nexttime : D) : F :=
  A.fraction d.frame.time nexttime (A.before d.frame.time (d.client i).sec)

/-- `origin`. -/
def origin (i : ℕ) (j : Fin 3) : F :=
  match d.next A i with
  | some (nextcl, nexttime) =>
    A.extrapolate (d.lerp A i nexttime) (nextcl.info.origin j) ((d.client i).info.origin j)
  | none => (d.client i).info.origin j

/-- `angles`. -/
def angles (i : ℕ) (j : Fin 3) : F :=
  match d.next A i with
  | some (nextcl, nexttime) =>
    A.adjustangle ((d.client i).info.angles j) (nextcl.info.angles j) (d.lerp A i nexttime)
  | none => (d.client i).info.angles j

/-- `flags |= 1 << k`, if `c`. -/
def setIf (c : Bool) (k : ℕ) (flags : BitVec 32) : BitVec 32 :=
  if c then flags ||| BitVec.twoPow 32 k else flags

/-- Whether the angles are compared. -/
def anglesMatter (i : ℕ) : Bool :=
  let cl := d.client i
  let fixangletime := if cl.fixangle then cl.cmdtime else d.fixangletime i
  cl.fixangle || !A.eq fixangletime cl.cmdtime

/-- `flags`. -/
def flags (i : ℕ) : BitVec 32 :=
  let cl := d.client i
  let flags := if d.playerreset i then cl.flags ||| dfReset else cl.flags
  let flags := setIf (!A.eq (d.origin A i 0) (d.compared A i)) dfOriginX flags
  let flags := setIf (!A.eq (d.origin A i 1) (d.compared A i)) (dfOriginX + 1) flags
  let flags := setIf (!A.eq (d.origin A i 2) (d.compared A i)) (dfOriginX + 2) flags
  let flags := setIf (d.anglesMatter A i && !A.eq (d.angles A i 0) ((d.info i).angles 0)) dfAngleX flags
  let flags := setIf (d.anglesMatter A i && !A.eq (d.angles A i 1) ((d.info i).angles 1)) (dfAngleX + 1) flags
  let flags := setIf (d.anglesMatter A i && !A.eq (d.angles A i 2) ((d.info i).angles 2)) (dfAngleX + 2) flags
  let flags := setIf (cl.info.model ≠ (d.info i).model) dfModel flags
  let flags := setIf (cl.info.effects ≠ (d.info i).effects) dfEffects flags
  let flags := setIf (cl.info.skinnum ≠ (d.info i).skinnum) dfSkinnum flags
  setIf (cl.info.weaponframe ≠ (d.info i).weaponframe) dfWeaponframe flags

end Demo

/-- `MSG_WriteShort`. -/
def writeShort (x : BitVec 16) : List Byte := [x.setWidth 8, (x >>> 8).setWidth 8]

/-- What is written of three numbers, those whose flags are set from `bit` on. -/
def writeAxes (write : F → List Byte) (flags : BitVec 32) (bit : ℕ) (x : Fin 3 → F) : List Byte :=
  (if flags.getLsbD bit then write (x 0) else []) ++ (if flags.getLsbD (bit + 1) then write (x 1) else [])
    ++ if flags.getLsbD (bit + 2) then write (x 2) else []

/-- `MSG_WriteByte` of a field whose flag is set. -/
def writeField (flags : BitVec 32) (bit : ℕ) (x : BitVec 32) : List Byte :=
  if flags.getLsbD bit then [x.setWidth 8] else []

/-- One `svc_playerinfo`. -/
def playerinfo (i : ℕ) (flags frame : BitVec 32) (origin angles : Fin 3 → F) (info : DemoInfo F) :
    List Byte :=
  svcPlayerinfo :: BitVec.ofNat 8 i :: writeShort (flags.setWidth 16) ++ [frame.setWidth 8]
    ++ writeAxes A.writeCoord flags dfOriginX origin
    ++ writeAxes (fun x => writeShort (A.writeAngle16 x)) flags dfAngleX angles
    ++ writeField flags dfModel info.model ++ writeField flags dfSkinnum info.skinnum
    ++ writeField flags dfEffects info.effects ++ writeField flags dfWeaponframe info.weaponframe

namespace Demo

variable (d : Demo F D)

/-- What is remembered when a player has been written. -/
def remember (i : ℕ) : Demo F D :=
  { d with
    playerreset := Function.update d.playerreset i false
    fixangletime :=
      if (d.client i).fixangle then Function.update d.fixangletime i (d.client i).cmdtime else d.fixangletime
    info := Function.update d.info i (d.client i).info }

/-- The loop over the slots, for so many from `i` on. -/
def writePlayers : ℕ → ℕ → Demo F D → Demo F D × List Byte
  | 0, _, d => (d, [])
  | n + 1, i, d =>
    if d.Valid i then
      let r := writePlayers n (i + 1) (d.remember i)
      (r.1, playerinfo A i (d.flags A i) (d.client i).frame (d.origin A i) (d.angles A i) (d.client i).info ++ r.2)
    else writePlayers n (i + 1) d

/-- A frame, and the message that is passed to `SV_WriteMVDMessage`: one that outgrew its buffer is
dropped there. -/
def writeFrame : Demo F D × List Byte :=
  let r := writePlayers A d.maxNetClients 0 d
  (r.1, if r.2.length > maxQwmsglen then [] else r.2)

end Demo

/-! ## The reader -/

/-- `player_state_t`, without `velocity`. -/
structure PlayerState (F : Type) where
  frame : Byte
  modelindex : Byte
  skinnum : Byte
  origin : Fin 3 → F
  angles : Fin 3 → F
  effects : Byte
  weaponframe : Byte

/-- A player of `map`. -/
structure Player (F : Type) where
  current : PlayerState F
  old : PlayerState F
  gibbed : Bool
  dead : Bool
  active : Bool
  oldactive : Bool

/-- `MAX_CLIENTS` of fteqtv. -/
def maxClients : ℕ := 32

/-- `ReadByte`, which gives zeros behind the end. -/
def readByte (m : List Byte) : Byte × List Byte := (m.headD 0, m.tail)

/-- `ReadShort`. -/
def readShort (m : List Byte) : BitVec 16 × List Byte :=
  let b1 := readByte m
  let b2 := readByte b1.2
  (b1.1.setWidth 16 ||| (b2.1.setWidth 16 <<< 8), b2.2)

/-- `ReadCoord`. -/
def readCoord (m : List Byte) : F × List Byte :=
  (A.readCoord ((List.range A.coordsize).map fun k => m.getD k 0), m.drop A.coordsize)

/-- An angle of the non-QuakeWorld branch. -/
def readAngle16 (m : List Byte) : F × List Byte := (A.readAngle16 (readShort m).1, (readShort m).2)

/-- One number of three, if its flag is set. -/
def readAxis (read : List Byte → F × List Byte) (flags : BitVec 16) (bit : ℕ) (j : Fin 3)
    (r : (Fin 3 → F) × List Byte) : (Fin 3 → F) × List Byte :=
  if flags.getLsbD (bit + j) then (Function.update r.1 j (read r.2).1, (read r.2).2) else r

/-- Three numbers, as far as their flags are set; the others stay. -/
def readAxes (read : List Byte → F × List Byte) (flags : BitVec 16) (bit : ℕ) (old : Fin 3 → F)
    (m : List Byte) : (Fin 3 → F) × List Byte :=
  readAxis read flags bit 2 (readAxis read flags bit 1 (readAxis read flags bit 0 (old, m)))

/-- A byte, if its flag is set. -/
def readField (flags : BitVec 16) (bit : ℕ) (old : Byte) (m : List Byte) : Byte × List Byte :=
  if flags.getLsbD bit then readByte m else (old, m)

/-- `ParsePlayerInfo`, the branch for other sources than QuakeWorld servers. -/
def parsePlayerInfo (players : ℕ → Player F) (m : List Byte) (clearoldplayers : Bool) :
    (ℕ → Player F) × List Byte :=
  let players := if clearoldplayers then
      fun i => { players i with oldactive := (players i).active, active := false }
    else players
  let (num, m) := readByte m
  let num := if num.toNat ≥ maxClients then 0 else num.toNat
  let p := players num
  let (flags, m) := readShort m
  let (frame, m) := readByte m
  let (origin, m) := readAxes (readCoord A) flags dfOriginX p.current.origin m
  let (angles, m) := readAxes (readAngle16 A) flags dfAngleX p.current.angles m
  let (modelindex, m) := readField flags dfModel p.current.modelindex m
  let (skinnum, m) := readField flags dfSkinnum p.current.skinnum m
  let (effects, m) := readField flags dfEffects p.current.effects m
  let (weaponframe, m) := readField flags dfWeaponframe p.current.weaponframe m
  (Function.update players num
    { p with
      current := ⟨frame, modelindex, skinnum, origin, angles, effects, weaponframe⟩
      old := p.current
      gibbed := flags.getLsbD dfGib
      dead := flags.getLsbD dfDead
      active := true }, m)

/-- `ParseMessage` on a message of `svc_playerinfo`s, for at most so many. -/
def parseMessage : ℕ → Bool → (ℕ → Player F) → List Byte → ℕ → Player F
  | 0, _, players, _ => players
  | n + 1, clearoldplayers, players, m =>
    if m = [] then players
    else if (readByte m).1 = svcPlayerinfo then
      let r := parsePlayerInfo A players (readByte m).2 clearoldplayers
      parseMessage n false r.1 r.2
    else players

/-! ## Recording, writing and reading -/

/-- A server that records, and a proxy that reads what is written. -/
structure Sys (F D : Type) where
  demo : Demo F D
  players : ℕ → Player F

/-- What happens: players are put into the current frame, the frame ends, the state of the players is
sent to new proxies, or frames are written. -/
inductive Op (F D : Type)
  | players (cls : ℕ → Option (DemoClient F))
  | endFrame (time : D)
  | sendGamestate
  | writePackets (num : ℕ)

/-- A frame is written and read. -/
def Sys.writeFrame (s : Sys F D) : Sys F D :=
  let r := s.demo.writeFrame A
  ⟨r.1, parseMessage A r.2.length true s.players r.2⟩

/-- The loop of `SV_MVDWritePackets`; for each frame, what was before and behind it. -/
def Sys.writeFrames : ℕ → Sys F D → Sys F D × List (Sys F D × Sys F D)
  | 0, s => (s, [])
  | n + 1, s =>
    let s' := s.writeFrame A
    let r := writeFrames n { s' with demo := { s'.demo with lastwritten := s'.demo.lastwritten + 1 } }
    (r.1, (s, s') :: r.2)

/-- One operation. -/
def Sys.exec (s : Sys F D) : Op F D → Sys F D × List (Sys F D × Sys F D)
  | .players cls =>
    let k := s.demo.parsecount % demoFrames
    let clients := fun i => match cls i with
      | some cl => { cl with parsecount := s.demo.parsecount }
      | none => (s.demo.frames k).clients i
    (⟨{ s.demo with frames := Function.update s.demo.frames k { s.demo.frames k with clients := clients } },
      s.players⟩, [])
  | .endFrame time =>
    let k := s.demo.parsecount % demoFrames
    (⟨{ s.demo with
        frames := Function.update s.demo.frames k { s.demo.frames k with time := time }
        parsecount := s.demo.parsecount + 1 }, s.players⟩, [])
  | .sendGamestate => (⟨{ s.demo with playerreset := fun _ => true }, s.players⟩, [])
  | .writePackets num =>
    let r := s.writeFrames A (min num (s.demo.parsecount + 1 - s.demo.lastwritten))
    (⟨{ r.1.demo with lastwritten := min r.1.demo.lastwritten r.1.demo.parsecount }, r.1.players⟩, r.2)

/-- The frames that are written in a run. -/
def Sys.run : Sys F D → List (Op F D) → List (Sys F D × Sys F D)
  | _, [] => []
  | s, op :: ops => (s.exec A op).2 ++ Sys.run (s.exec A op).1 ops

/-- A recording begins. -/
def Sys.start (demo : Demo F D) (players : ℕ → Player F) : Sys F D :=
  ⟨{ demo with parsecount := 0, lastwritten := 0, playerreset := fun _ => true }, players⟩

/-! ## One player -/

section Flags

variable (d : Demo F D) (i : ℕ)

theorem getLsbD_setIf (c : Bool) (k : ℕ) (flags : BitVec 32) {n : ℕ} (hn : n < 32) :
    (Demo.setIf c k flags).getLsbD n = (flags.getLsbD n || (c && decide (k = n))) := by
  unfold Demo.setIf
  cases c with
  | false => simp
  | true =>
    simp only [if_true, BitVec.getLsbD_or, BitVec.getLsbD_twoPow, Bool.true_and]
    by_cases hk : k = n
    · subst hk
      simp [hn]
    · simp [hk]

theorem getLsbD_reset {n : ℕ} (hn : dfReset.getLsbD n = true) :
    (if d.playerreset i then (d.client i).flags ||| dfReset else (d.client i).flags).getLsbD n
      = ((d.client i).flags.getLsbD n || d.playerreset i) := by
  cases d.playerreset i <;> simp [hn]

/-- A coordinate is written. -/
theorem flags_origin (j : Fin 3) : (d.flags A i).getLsbD (dfOriginX + j)
    = ((d.client i).flags.getLsbD (dfOriginX + j) || d.playerreset i
      || !A.eq (d.origin A i j) (d.compared A i)) := by
  have hj := j.isLt
  have hreset : dfReset.getLsbD (dfOriginX + j) = true := by
    revert j
    decide
  unfold Demo.flags
  simp (disch := simp only [dfOriginX]; omega) only [getLsbD_setIf, getLsbD_reset d i hreset]
  fin_cases j <;> simp [dfOriginX, dfAngleX, dfModel, dfEffects, dfSkinnum, dfWeaponframe]

/-- A field is written that is an `int`. -/
theorem flags_field : (d.flags A i).getLsbD dfModel
      = ((d.client i).flags.getLsbD dfModel || d.playerreset i
        || decide ((d.client i).info.model ≠ (d.info i).model)) ∧
    (d.flags A i).getLsbD dfSkinnum
      = ((d.client i).flags.getLsbD dfSkinnum || d.playerreset i
        || decide ((d.client i).info.skinnum ≠ (d.info i).skinnum)) ∧
    (d.flags A i).getLsbD dfEffects
      = ((d.client i).flags.getLsbD dfEffects || d.playerreset i
        || decide ((d.client i).info.effects ≠ (d.info i).effects)) ∧
    (d.flags A i).getLsbD dfWeaponframe
      = ((d.client i).flags.getLsbD dfWeaponframe || d.playerreset i
        || decide ((d.client i).info.weaponframe ≠ (d.info i).weaponframe)) := by
  unfold Demo.flags
  refine ⟨?_, ?_, ?_, ?_⟩
  all_goals
    simp (disch := decide) only [getLsbD_setIf]
    rw [getLsbD_reset d i (by decide)]
    simp [dfOriginX, dfAngleX, dfModel, dfEffects, dfSkinnum, dfWeaponframe]

theorem findNext_remember (cl : DemoClient F) (time : D) (k n j : ℕ) (nexttime : D) :
    (d.remember i).findNext A cl time k n j nexttime = d.findNext A cl time k n j nexttime := by
  induction n generalizing j nexttime with
  | zero => rfl
  | succ n ih =>
    simp only [Demo.findNext, ih]
    rfl

theorem next_remember (k : ℕ) : (d.remember i).next A k = d.next A k := findNext_remember A d i ..

theorem origin_remember (k : ℕ) : (d.remember i).origin A k = d.origin A k := by
  funext j
  unfold Demo.origin
  rw [next_remember]
  rfl

theorem angles_remember (k : ℕ) : (d.remember i).angles A k = d.angles A k := by
  funext j
  unfold Demo.angles
  rw [next_remember]
  rfl

/-- What is remembered of one player does not change what is written of those behind it. -/
theorem flags_remember {k : ℕ} (h : i < k) : (d.remember i).flags A k = d.flags A k := by
  have hne : k ≠ i := by omega
  have hne' : k + k / 10 ≠ i := by
    have := Nat.zero_le (k / 10)
    omega
  have hcompared : (d.remember i).compared A k = d.compared A k := by
    simp only [Demo.compared, Demo.remember, update_of_ne hne']
  have hangles : (d.remember i).anglesMatter A k = d.anglesMatter A k := by
    unfold Demo.anglesMatter Demo.remember
    by_cases hfix : (d.client i).fixangle
    · simp only [if_pos hfix, update_of_ne hne]
      rfl
    · simp only [if_neg hfix]
      rfl
  have hinfo : (d.remember i).info k = d.info k := update_of_ne hne ..
  have hreset : (d.remember i).playerreset k = d.playerreset k := update_of_ne hne ..
  unfold Demo.flags
  rw [hcompared, hangles, hinfo, hreset, origin_remember, angles_remember]
  rfl

end Flags

section Read

variable {rest : List Byte} {flags : BitVec 32} {bit : ℕ}

theorem getLsbD_short (hbit : bit < 16) : (flags.setWidth 16).getLsbD bit = flags.getLsbD bit := by
  rw [BitVec.getLsbD_setWidth, decide_eq_true hbit, Bool.true_and]

theorem readShort_writeShort (x : BitVec 16) (rest : List Byte) :
    readShort (writeShort x ++ rest) = (x, rest) := by
  refine Prod.ext ?_ rfl
  refine BitVec.eq_of_getLsbD_eq fun n hn => ?_
  simp only [readShort, readByte, writeShort, cons_append, nil_append, headD_cons, tail_cons,
    BitVec.getLsbD_or, BitVec.getLsbD_shiftLeft, BitVec.getLsbD_setWidth, BitVec.getLsbD_ushiftRight]
  by_cases hlow : n < 8
  · simp [hn, hlow]
  · have hhigh : n - 8 < 8 := by omega
    have hsum : 8 + (n - 8) = n := by omega
    simp [hn, hlow, hhigh, hsum]
    omega

theorem readCoord_writeCoord (x : F) (rest : List Byte) :
    readCoord A (A.writeCoord x ++ rest) = (A.readCoord (A.writeCoord x), rest) := by
  have hlen := A.length_writeCoord x
  refine Prod.ext ?_ ?_
  · simp only [readCoord]
    congr 1
    refine ext_getElem (by simp [hlen]) fun k hk _ => ?_
    have hk' : k < (A.writeCoord x).length := by simpa [hlen] using hk
    rw [getElem_map, getElem_range, getD_eq_getElem?_getD, getElem?_append_left hk',
      getElem?_eq_getElem hk', Option.getD_some]
  · simp only [readCoord]
    rw [← hlen, drop_left]

theorem readAngle16_writeAngle16 (x : F) (rest : List Byte) :
    readAngle16 A (writeShort (A.writeAngle16 x) ++ rest) = (A.readAngle16 (A.writeAngle16 x), rest) := by
  rw [readAngle16, readShort_writeShort]

/-- What is read of three numbers is what was written, and the others stay. -/
theorem readAxes_writeAxes {read : List Byte → F × List Byte} {write : F → List Byte} {quantise : F → F}
    (hread : ∀ x rest, read (write x ++ rest) = (quantise x, rest)) (hbit : bit + 2 < 16) (old x : Fin 3 → F) :
    readAxes read (flags.setWidth 16) bit old (writeAxes write flags bit x ++ rest)
      = (fun j : Fin 3 => if flags.getLsbD (bit + j) then quantise (x j) else old j, rest) := by
  have haxis (j : Fin 3) (v : Fin 3 → F) (r : List Byte) :
      readAxis read (flags.setWidth 16) bit j (v, (if flags.getLsbD (bit + j) then write (x j) else []) ++ r)
        = (if flags.getLsbD (bit + j) then Function.update v j (quantise (x j)) else v, r) := by
    have hj := j.isLt
    unfold readAxis
    rw [getLsbD_short (by omega)]
    by_cases h : flags.getLsbD (bit + j) = true
    · rw [if_pos h, if_pos h, if_pos h, hread]
    · rw [if_neg h, if_neg h, if_neg h, nil_append]
  have h0 := haxis 0
  have h1 := haxis 1
  have h2 := haxis 2
  simp only [Fin.val_zero, Fin.val_one, Fin.val_two, add_zero] at h0 h1 h2
  unfold readAxes writeAxes
  rw [append_assoc, append_assoc, h0, h1, h2]
  refine Prod.ext (funext fun j => ?_) rfl
  fin_cases j <;> simp only [Fin.isValue, Fin.zero_eta, Fin.mk_one, Fin.reduceFinMk] <;>
    split <;> split <;> split <;> simp_all [Function.update]

theorem readField_writeField (hbit : bit < 16) (old : Byte) (x : BitVec 32) :
    readField (flags.setWidth 16) bit old (writeField flags bit x ++ rest)
      = (if flags.getLsbD bit then x.setWidth 8 else old, rest) := by
  unfold readField writeField
  rw [getLsbD_short hbit]
  by_cases h : flags.getLsbD bit = true
  · rw [if_pos h, if_pos h, if_pos h]
    rfl
  · rw [if_neg h, if_neg h, if_neg h, nil_append]

end Read

/-- What the proxy has of a player behind a `svc_playerinfo`. -/
def PlayerState.receive (flags frame : BitVec 32) (origin angles : Fin 3 → F) (info : DemoInfo F)
    (p : PlayerState F) : PlayerState F where
  frame := frame.setWidth 8
  modelindex := if flags.getLsbD dfModel then info.model.setWidth 8 else p.modelindex
  skinnum := if flags.getLsbD dfSkinnum then info.skinnum.setWidth 8 else p.skinnum
  origin := fun j => if flags.getLsbD (dfOriginX + j) then A.readCoord (A.writeCoord (origin j)) else p.origin j
  angles := fun j => if flags.getLsbD (dfAngleX + j) then A.readAngle16 (A.writeAngle16 (angles j)) else p.angles j
  effects := if flags.getLsbD dfEffects then info.effects.setWidth 8 else p.effects
  weaponframe := if flags.getLsbD dfWeaponframe then info.weaponframe.setWidth 8 else p.weaponframe

/-- `ParsePlayerInfo` reads what was written of a player, to its end. -/
theorem parsePlayerInfo_playerinfo (players : ℕ → Player F) (clear : Bool) {i : ℕ} (hi : i < maxClients)
    (flags frame : BitVec 32) (origin angles : Fin 3 → F) (info : DemoInfo F) (rest : List Byte) :
    ∃ players', parsePlayerInfo A players (playerinfo A i flags frame origin angles info ++ rest).tail clear
        = (players', rest) ∧
      ∀ k, (players' k).current =
        if k = i then (players i).current.receive A flags frame origin angles info else (players k).current := by
  have hnum : (BitVec.ofNat 8 i).toNat = i := by
    rw [BitVec.toNat_ofNat]
    unfold maxClients at hi
    omega
  have hbytes : (playerinfo A i flags frame origin angles info ++ rest).tail
      = BitVec.ofNat 8 i :: (writeShort (flags.setWidth 16) ++ (frame.setWidth 8
        :: (writeAxes A.writeCoord flags dfOriginX origin
          ++ (writeAxes (fun x => writeShort (A.writeAngle16 x)) flags dfAngleX angles
          ++ (writeField flags dfModel info.model ++ (writeField flags dfSkinnum info.skinnum
          ++ (writeField flags dfEffects info.effects
          ++ (writeField flags dfWeaponframe info.weaponframe ++ rest)))))))) := by
    simp [playerinfo]
  rw [hbytes]
  generalize hcleared : (if clear then
      fun k => { players k with oldactive := (players k).active, active := false } else players) = cleared
  have hcurrent (k : ℕ) : (cleared k).current = (players k).current := by
    rw [← hcleared]
    split <;> rfl
  have hcoords (old : Fin 3 → F) (rest : List Byte) :=
    @readAxes_writeAxes F rest flags dfOriginX _ _ _ (readCoord_writeCoord A) (by decide) old origin
  have hangles (old : Fin 3 → F) (rest : List Byte) :=
    @readAxes_writeAxes F rest flags dfAngleX _ _ _ (readAngle16_writeAngle16 A) (by decide) old angles
  unfold parsePlayerInfo
  simp only [hcleared, readByte, headD_cons, tail_cons, hnum, if_neg (not_le.mpr hi),
    readShort_writeShort, hcoords, hangles,
    readField_writeField (by decide : dfModel < 16), readField_writeField (by decide : dfSkinnum < 16),
    readField_writeField (by decide : dfEffects < 16), readField_writeField (by decide : dfWeaponframe < 16)]
  refine ⟨_, rfl, fun k => ?_⟩
  by_cases hk : k = i
  · subst hk
    rw [if_pos rfl, update_self, PlayerState.receive]
    simp only [hcurrent]
  · rw [if_neg hk, update_of_ne hk, hcurrent]

theorem length_writeShort (x : BitVec 16) : (writeShort x).length = 2 := rfl

theorem length_writeAxes_le {write : F → List Byte} {flags : BitVec 32} {bit n : ℕ} {x : Fin 3 → F}
    (h : ∀ x, (write x).length ≤ n) : (writeAxes write flags bit x).length ≤ 3 * n := by
  have hpart (c : Bool) (j : Fin 3) : (if c then write (x j) else []).length ≤ n := by
    split
    · exact h _
    · exact Nat.zero_le _
  have h0 := hpart (flags.getLsbD bit) 0
  have h1 := hpart (flags.getLsbD (bit + 1)) 1
  have h2 := hpart (flags.getLsbD (bit + 2)) 2
  rw [writeAxes, length_append, length_append]
  omega

theorem length_writeField_le (flags : BitVec 32) (bit : ℕ) (x : BitVec 32) :
    (writeField flags bit x).length ≤ 1 := by
  unfold writeField
  split
  · exact le_rfl
  · exact Nat.zero_le _

theorem length_playerinfo_le (i : ℕ) (flags frame : BitVec 32) (origin angles : Fin 3 → F) (info : DemoInfo F) :
    (playerinfo A i flags frame origin angles info).length ≤ 27 := by
  have hcoords := @length_writeAxes_le F A.writeCoord flags dfOriginX 4 origin
    fun x => (A.length_writeCoord x).le.trans A.coordsize_le
  have hangles := @length_writeAxes_le F (fun x => writeShort (A.writeAngle16 x)) flags dfAngleX 2 angles
    fun x => le_rfl
  have hmodel := length_writeField_le flags dfModel info.model
  have hskinnum := length_writeField_le flags dfSkinnum info.skinnum
  have heffects := length_writeField_le flags dfEffects info.effects
  have hweaponframe := length_writeField_le flags dfWeaponframe info.weaponframe
  simp only [playerinfo, length_append, length_cons, length_writeShort, length_nil]
  omega

/-! ## One frame -/

section Frame

variable (d : Demo F D)

/-- What the proxy has of the player in slot `k` behind the frame. -/
def Demo.send (k : ℕ) (p : PlayerState F) : PlayerState F :=
  p.receive A (d.flags A k) (d.client k).frame (d.origin A k) (d.angles A k) (d.client k).info

/-- What is remembered behind the slots of a frame from `i` up to `i + n`. -/
structure Remembered (d d' : Demo F D) (i n : ℕ) : Prop where
  frames : d'.frames = d.frames
  parsecount : d'.parsecount = d.parsecount
  lastwritten : d'.lastwritten = d.lastwritten
  maxNetClients : d'.maxNetClients = d.maxNetClients
  written : ∀ k, i ≤ k → k < i + n → d.Valid k → d'.info k = (d.client k).info
  others : ∀ k, ¬(i ≤ k ∧ k < i + n ∧ d.Valid k) → d'.info k = d.info k ∧ d'.playerreset k = d.playerreset k

theorem writePlayers_remembered (n i : ℕ) (d : Demo F D) :
    Remembered d (Demo.writePlayers A n i d).1 i n := by
  induction n generalizing i d with
  | zero => exact ⟨rfl, rfl, rfl, rfl, fun k h₁ h₂ _ => by omega, fun _ _ => ⟨rfl, rfl⟩⟩
  | succ n ih =>
    unfold Demo.writePlayers
    by_cases hv : d.Valid i
    · rw [if_pos hv]
      have h := ih (i + 1) (d.remember i)
      refine ⟨h.frames, h.parsecount, h.lastwritten, h.maxNetClients, fun k hik hkn hvk => ?_, fun k hk => ?_⟩
      · rcases hik.lt_or_eq with hlt | rfl
        · exact h.written k hlt (by omega) hvk
        · rw [(h.others i fun hk => by omega).1]
          exact update_self ..
      · have hne : k ≠ i := by
          rintro rfl
          exact hk ⟨le_rfl, by omega, hv⟩
        obtain ⟨hinfo, hreset⟩ := h.others k fun ⟨h₁, h₂, h₃⟩ => hk ⟨by omega, by omega, h₃⟩
        rw [hinfo, hreset]
        exact ⟨update_of_ne hne .., update_of_ne hne ..⟩
    · rw [if_neg hv]
      have h := ih (i + 1) d
      refine ⟨h.frames, h.parsecount, h.lastwritten, h.maxNetClients, fun k hik hkn hvk => ?_, fun k hk => ?_⟩
      · rcases hik.lt_or_eq with hlt | rfl
        · exact h.written k hlt (by omega) hvk
        · exact absurd hvk hv
      · exact h.others k fun ⟨h₁, h₂, h₃⟩ => hk ⟨by omega, by omega, h₃⟩

theorem length_writePlayers_le (n i : ℕ) (d : Demo F D) (hvalid : ∀ k, i ≤ k → k < i + n → d.Valid k → k < maxClients) :
    (Demo.writePlayers A n i d).2.length ≤ 27 * (maxClients - i) := by
  induction n generalizing i d with
  | zero => exact Nat.zero_le _
  | succ n ih =>
    unfold Demo.writePlayers
    by_cases hv : d.Valid i
    · have hi := hvalid i le_rfl (by omega) hv
      have hrest := ih (i + 1) (d.remember i) fun k h₁ h₂ h₃ => hvalid k (by omega) (by omega) h₃
      have hfirst := length_playerinfo_le A i (d.flags A i) (d.client i).frame (d.origin A i) (d.angles A i)
        (d.client i).info
      rw [if_pos hv, length_append]
      omega
    · have hrest := ih (i + 1) d fun k h₁ h₂ h₃ => hvalid k (by omega) (by omega) h₃
      rw [if_neg hv]
      omega

/-- The proxy reads what was written of the slots from `i` up to `i + n`. -/
theorem parseMessage_writePlayers (n i fuel : ℕ) (d : Demo F D) (clear : Bool) (players : ℕ → Player F)
    (hvalid : ∀ k, i ≤ k → k < i + n → d.Valid k → k < maxClients)
    (hfuel : (Demo.writePlayers A n i d).2.length ≤ fuel) (k : ℕ) :
    (parseMessage A fuel clear players (Demo.writePlayers A n i d).2 k).current =
      if i ≤ k ∧ k < i + n ∧ d.Valid k then d.send A k (players k).current else (players k).current := by
  induction n generalizing i fuel d clear players with
  | zero =>
    rw [if_neg (by omega)]
    cases fuel with
    | zero => rfl
    | succ fuel => rfl
  | succ n ih =>
    unfold Demo.writePlayers at hfuel ⊢
    by_cases hv : d.Valid i
    · have hi := hvalid i le_rfl (by omega) hv
      rw [if_pos hv] at hfuel ⊢
      simp only [length_append] at hfuel ⊢
      generalize hrest : (Demo.writePlayers A n (i + 1) (d.remember i)).2 = rest at hfuel
      obtain ⟨players', hparse, hplayers⟩ := parsePlayerInfo_playerinfo A players clear hi (d.flags A i)
        (d.client i).frame (d.origin A i) (d.angles A i) (d.client i).info rest
      obtain ⟨tail, hcons⟩ : ∃ tail, playerinfo A i (d.flags A i) (d.client i).frame (d.origin A i)
          (d.angles A i) (d.client i).info = svcPlayerinfo :: tail := ⟨_, rfl⟩
      rw [hcons] at hfuel hparse ⊢
      cases fuel with
      | zero => simp at hfuel
      | succ fuel =>
        have hstep : parseMessage A (fuel + 1) clear players (svcPlayerinfo :: tail ++ rest)
            = parseMessage A fuel false players' rest := by
          have hsvc : (readByte (svcPlayerinfo :: tail ++ rest)).1 = svcPlayerinfo := rfl
          rw [parseMessage, if_neg (by simp), if_pos hsvc]
          simp only [readByte, hparse]
        have hrun := ih (i + 1) fuel (d.remember i) false players'
          (fun k h₁ h₂ h₃ => hvalid k (by omega) (by omega) h₃) (by
            rw [hrest]
            simp only [length_cons] at hfuel
            omega)
        rw [hrest] at hrun
        rw [hstep, hrun, hplayers]
        have hvalid' : (d.remember i).Valid k ↔ d.Valid k := Iff.rfl
        by_cases hki : k = i
        · subst hki
          rw [if_neg (by omega), if_pos rfl, if_pos ⟨le_rfl, by omega, hv⟩]
          rfl
        · have hsend (h : i < k) : (d.remember i).send A k = d.send A k := by
            unfold Demo.send
            rw [flags_remember A d i h, origin_remember, angles_remember]
            rfl
          rw [if_neg hki]
          by_cases hk : i ≤ k ∧ k < i + (n + 1) ∧ d.Valid k
          · rw [if_pos hk, if_pos ⟨by omega, by omega, hk.2.2⟩, hsend (by omega)]
          · rw [if_neg hk, if_neg fun ⟨h₁, h₂, h₃⟩ => hk ⟨by omega, by omega, h₃⟩]
    · rw [if_neg hv] at hfuel ⊢
      rw [ih (i + 1) fuel d clear players (fun k h₁ h₂ h₃ => hvalid k (by omega) (by omega) h₃) hfuel]
      by_cases hk : i ≤ k ∧ k < i + (n + 1) ∧ d.Valid k
      · have hki : k ≠ i := by
          rintro rfl
          exact hv hk.2.2
        rw [if_pos hk, if_pos ⟨by omega, by omega, hk.2.2⟩]
      · rw [if_neg hk, if_neg fun ⟨h₁, h₂, h₃⟩ => hk ⟨by omega, by omega, h₃⟩]

end Frame

/-! ## Runs -/

/-- After a frame, the proxy has each player of the frame where the writer computed it to be, and with
the fields that were recorded. -/
def Conveyed (w : Sys F D × Sys F D) : Prop :=
  ∀ i < w.1.demo.maxNetClients, w.1.demo.Valid i → i < maxClients ∧
    (∀ j, (w.2.players i).current.origin j = A.readCoord (A.writeCoord (w.1.demo.origin A i j))) ∧
    (w.2.players i).current.modelindex.setWidth 32 = (w.1.demo.client i).info.model ∧
    (w.2.players i).current.skinnum.setWidth 32 = (w.1.demo.client i).info.skinnum ∧
    (w.2.players i).current.effects = (w.1.demo.client i).info.effects.setWidth 8 ∧
    (w.2.players i).current.weaponframe.setWidth 32 = (w.1.demo.client i).info.weaponframe

/-- A coordinate is not written: it is equal to the number it is compared with. -/
def Demo.LeftOut (d : Demo F D) (i : ℕ) (j : Fin 3) : Prop :=
  (d.client i).flags.getLsbD (dfOriginX + j) = false ∧ d.playerreset i = false ∧
    A.eq (d.origin A i j) (d.compared A i) = true

/-- The players of a frame have slots in the proxy and fields that fit a byte, and the proxy has already
each coordinate that is left out. -/
def Sendable (s : Sys F D) : Prop :=
  ∀ i < s.demo.maxNetClients, s.demo.Valid i → i < maxClients ∧
    (∀ j, s.demo.LeftOut A i j →
      (s.players i).current.origin j = A.readCoord (A.writeCoord (s.demo.origin A i j))) ∧
    (s.demo.client i).info.model.toNat < 256 ∧ (s.demo.client i).info.skinnum.toNat < 256 ∧
    (s.demo.client i).info.weaponframe.toNat < 256

/-- The proxy has the low bytes of what is remembered. -/
structure Holds (info : DemoInfo F) (p : PlayerState F) : Prop where
  model : p.modelindex = info.model.setWidth 8
  skinnum : p.skinnum = info.skinnum.setWidth 8
  effects : p.effects = info.effects.setWidth 8
  weaponframe : p.weaponframe = info.weaponframe.setWidth 8

/-- The proxy has what is remembered of each player that is not to be reset. -/
def Agrees (d : Demo F D) (players : ℕ → Player F) : Prop :=
  ∀ k < maxClients, d.playerreset k = false → Holds (d.info k) (players k).current

section Send

variable {d : Demo F D} {k : ℕ} {p : PlayerState F}

/-- A field that is flagged when it differs from what is remembered. -/
theorem field_eq {flagged cur reset : Bool} {x y : BitVec 32} {held : Byte}
    (hflag : flagged = (cur || reset || decide (x ≠ y))) (h : reset = false → held = y.setWidth 8) :
    (if flagged then x.setWidth 8 else held) = x.setWidth 8 := by
  split
  · rfl
  · rename_i hnot
    rw [hflag] at hnot
    simp only [Bool.or_eq_true, not_or, Bool.not_eq_true, decide_eq_true_eq, not_not] at hnot
    rw [h hnot.1.2, hnot.2]

theorem send_holds (h : d.playerreset k = false → Holds (d.info k) p) :
    Holds (d.client k).info (d.send A k p) := by
  obtain ⟨hmodel, hskinnum, heffects, hweaponframe⟩ := flags_field A d k
  exact ⟨field_eq hmodel fun hr => (h hr).model, field_eq hskinnum fun hr => (h hr).skinnum,
    field_eq heffects fun hr => (h hr).effects, field_eq hweaponframe fun hr => (h hr).weaponframe⟩

theorem send_origin (j : Fin 3) : (d.send A k p).origin j = A.readCoord (A.writeCoord (d.origin A k j)) ↔
    (d.LeftOut A k j → p.origin j = A.readCoord (A.writeCoord (d.origin A k j))) := by
  unfold Demo.send PlayerState.receive Demo.LeftOut
  simp only [flags_origin]
  by_cases hflag : ((d.client k).flags.getLsbD (dfOriginX + j) || d.playerreset k
      || !A.eq (d.origin A k j) (d.compared A k)) = true
  · rw [if_pos hflag]
    refine iff_of_true rfl fun hleft => ?_
    rw [hleft.1, hleft.2.1, hleft.2.2] at hflag
    cases hflag
  · rw [if_neg hflag]
    simp only [Bool.or_eq_true, not_or, Bool.not_eq_true, Bool.not_eq_false'] at hflag
    exact ⟨fun h _ => h, fun h => h ⟨hflag.1.1, hflag.1.2, hflag.2⟩⟩

theorem setWidth_eq_iff (x : BitVec 32) : (x.setWidth 8).setWidth 32 = x ↔ x.toNat < 256 := by
  rw [← BitVec.toNat_inj]
  simp only [BitVec.toNat_setWidth]
  have := x.isLt
  omega

end Send

section Run

variable {A}

/-- One frame. -/
theorem writeFrame_spec {s : Sys F D} (h : Agrees s.demo s.players) :
    (Conveyed A (s, s.writeFrame A) ↔ Sendable A s) ∧
      (Sendable A s → Agrees (s.writeFrame A).demo (s.writeFrame A).players) := by
  by_cases hslots : ∀ i < s.demo.maxNetClients, s.demo.Valid i → i < maxClients
  swap
  · refine ⟨iff_of_false (fun hc => hslots fun i hi hv => (hc i hi hv).1) fun hc =>
      hslots fun i hi hv => (hc i hi hv).1, fun hc => absurd (fun i hi hv => (hc i hi hv).1) hslots⟩
  have hslots' (k : ℕ) (_ : 0 ≤ k) (hk : k < 0 + s.demo.maxNetClients) (hv : s.demo.Valid k) : k < maxClients :=
    hslots k (by omega) hv
  have hlength := length_writePlayers_le A s.demo.maxNetClients 0 s.demo hslots'
  have hmessage : (s.demo.writeFrame A).2 = (Demo.writePlayers A s.demo.maxNetClients 0 s.demo).2 := by
    simp only [Demo.writeFrame]
    rw [if_neg]
    unfold maxClients at hlength
    unfold maxQwmsglen
    omega
  have hplayers (k : ℕ) : ((s.writeFrame A).players k).current =
      if k < s.demo.maxNetClients ∧ s.demo.Valid k then s.demo.send A k (s.players k).current
      else (s.players k).current := by
    have := parseMessage_writePlayers A s.demo.maxNetClients 0 _ s.demo true s.players hslots' le_rfl k
    simp only [Nat.zero_le, true_and, Nat.zero_add] at this
    rw [← hmessage] at this
    exact this
  have hremembered := writePlayers_remembered A s.demo.maxNetClients 0 s.demo
  constructor
  · unfold Conveyed Sendable
    refine forall_congr' fun i => forall_congr' fun hi => forall_congr' fun hv => ?_
    have hi32 := hslots i hi hv
    rw [hplayers i, if_pos ⟨hi, hv⟩]
    have hholds := send_holds A fun hr => h i hi32 hr
    rw [hholds.model, hholds.skinnum, hholds.effects, hholds.weaponframe, setWidth_eq_iff, setWidth_eq_iff,
      setWidth_eq_iff]
    refine and_congr_right fun _ => and_congr (forall_congr' fun j => send_origin A j) ?_
    exact ⟨fun h => ⟨h.1, h.2.1, h.2.2.2⟩, fun h => ⟨h.1, h.2.1, rfl, h.2.2⟩⟩
  · intro _ k hk hreset
    rw [hplayers k]
    by_cases hv : k < s.demo.maxNetClients ∧ s.demo.Valid k
    · rw [if_pos hv]
      have hinfo : (s.writeFrame A).demo.info k = (s.demo.client k).info :=
        hremembered.written k (Nat.zero_le _) (by omega) hv.2
      rw [hinfo]
      exact send_holds A fun hr => h k hk hr
    · rw [if_neg hv]
      obtain ⟨hinfo, hsame⟩ := hremembered.others k fun hw => hv ⟨by omega, hw.2.2⟩
      have hinfo' : (s.writeFrame A).demo.info k = s.demo.info k := hinfo
      rw [hinfo']
      exact h k hk (hsame ▸ hreset)

/-- The frames of a list are conveyed if and only if they can be sent, and then the proxy agrees with
what is remembered in `s'`. -/
def Exact (A : Arith F D) (l : List (Sys F D × Sys F D)) (s' : Sys F D) : Prop :=
  ((∀ w ∈ l, Conveyed A w) ↔ ∀ w ∈ l, Sendable A w.1) ∧ ((∀ w ∈ l, Sendable A w.1) → Agrees s'.demo s'.players)

theorem Exact.append {l l' : List (Sys F D × Sys F D)} {s s' : Sys F D} (h : Exact A l s)
    (h' : Agrees s.demo s.players → Exact A l' s') : Exact A (l ++ l') s' := by
  unfold Exact
  simp only [forall_mem_append]
  refine ⟨⟨fun hc => ?_, fun hc => ?_⟩, fun hc => (h' (h.2 hc.1)).2 hc.2⟩
  · have hl := h.1.mp hc.1
    exact ⟨hl, (h' (h.2 hl)).1.mp hc.2⟩
  · exact ⟨h.1.mpr hc.1, (h' (h.2 hc.1)).1.mpr hc.2⟩

theorem writeFrames_exact (n : ℕ) {s : Sys F D} (h : Agrees s.demo s.players) :
    Exact A (s.writeFrames A n).2 (s.writeFrames A n).1 := by
  induction n generalizing s with
  | zero => exact ⟨by simp [Sys.writeFrames], fun _ => h⟩
  | succ n ih =>
    obtain ⟨hiff, hagrees⟩ := writeFrame_spec (A := A) h
    have hfirst : Exact A [(s, s.writeFrame A)] (s.writeFrame A) := by
      unfold Exact
      simp only [forall_mem_singleton]
      exact ⟨hiff, hagrees⟩
    exact hfirst.append fun hnext => ih hnext

theorem exec_exact {s : Sys F D} (h : Agrees s.demo s.players) (op : Op F D) :
    Exact A (s.exec A op).2 (s.exec A op).1 := by
  cases op with
  | players cls => exact ⟨by simp [Sys.exec], fun _ => h⟩
  | endFrame time => exact ⟨by simp [Sys.exec], fun _ => h⟩
  | sendGamestate =>
    refine ⟨by simp [Sys.exec], fun _ k _ hreset => ?_⟩
    cases hreset
  | writePackets num => exact writeFrames_exact _ h

/-- **In every run, the proxy has after each frame what was recorded of the players in it if and only if
in each frame that is written the players have slots in the proxy and fields that fit a byte, and a
coordinate is left out only where the proxy has it already.** -/
theorem mvdPlayers_conveyed (A : Arith F D) (demo : Demo F D) (players : ℕ → Player F) (ops : List (Op F D)) :
    (∀ w ∈ (Sys.start demo players).run A ops, Conveyed A w) ↔
      ∀ w ∈ (Sys.start demo players).run A ops, Sendable A w.1 := by
  suffices hrun : ∀ s : Sys F D, Agrees s.demo s.players →
      ((∀ w ∈ s.run A ops, Conveyed A w) ↔ ∀ w ∈ s.run A ops, Sendable A w.1) by
    refine hrun _ fun k _ hreset => ?_
    cases hreset
  induction ops with
  | nil => simp [Sys.run]
  | cons op ops ih =>
    intro s hs
    unfold Sys.run
    have hop := exec_exact (A := A) hs op
    simp only [List.forall_mem_append]
    constructor
    · intro hc
      have hl := hop.1.mp hc.1
      exact ⟨hl, (ih _ (hop.2 hl)).mp hc.2⟩
    · intro hc
      exact ⟨hop.1.mpr hc.1, (ih _ (hop.2 hc.1)).mpr hc.2⟩

end Run

/-! ## A player that walks -/

/-- Coordinates in eighths, as shorts. -/
def eighths : Arith ℤ ℤ where
  eq a b := decide (a = b)
  lt a b := decide (a < b)
  ge a b := decide (b ≤ a)
  before time sec := time - sec
  fraction time nexttime playertime := (time - nexttime) / (nexttime - playertime)
  extrapolate f next cur := next + f * (next - cur)
  adjustangle cur next f := cur + (1 + f) * (next - cur)
  ofBits := BitVec.toInt
  writeCoord x := writeShort (BitVec.ofInt 16 x)
  readCoord m := (readShort m).1.toInt
  coordsize := 2
  length_writeCoord _ := rfl
  coordsize_le := by decide
  writeAngle16 := BitVec.ofInt 16
  readAngle16 := BitVec.toInt

/-- A player of model 1 at a place. -/
def playerAt (x y z : ℤ) : DemoClient ℤ := ⟨⟨![x, y, z], ![0, 0, 0], 0, 0, 1, 0⟩, 0, 0, false, 0, 0, 0⟩

/-- A demo of one slot. -/
def oneSlot : Demo ℤ ℤ :=
  ⟨fun _ => ⟨fun _ => playerAt 0 0 0, 0⟩, 0, 0, fun _ => false, fun _ => 0, fun _ => (playerAt 0 0 0).info, 1⟩

/-- A proxy that has seen nobody. -/
def noPlayers : ℕ → Player ℤ := fun _ =>
  ⟨⟨0, 0, 0, ![0, 0, 0], ![0, 0, 0], 0, 0⟩, ⟨0, 0, 0, ![0, 0, 0], ![0, 0, 0], 0, 0⟩, false, false, false, false⟩

/-- Two frames, and both are written. -/
def twoFrames (first second : DemoClient ℤ) : List (Op ℤ ℤ) :=
  [.players fun i => if i = 0 then some first else none, .endFrame 0,
    .players fun i => if i = 0 then some second else none, .endFrame 13, .writePackets 1, .writePackets 1]

/-- The player walks from `(1, 2, 3)` to `(1, 1, 5)`: the new `y` is the `x` it is compared with, and is
left out. -/
theorem mvdPlayers_drift : ¬∀ w ∈ (Sys.start oneSlot noPlayers).run eighths
    (twoFrames (playerAt 1 2 3) (playerAt 1 1 5)), Conveyed eighths w := by
  intro h
  have hsecond := h (((Sys.start oneSlot noPlayers).run eighths
    (twoFrames (playerAt 1 2 3) (playerAt 1 1 5))).get ⟨1, by decide +kernel⟩) (List.get_mem ..)
  have hy := (hsecond 0 (by decide +kernel) (by decide +kernel)).2.1 1
  revert hy
  decide +kernel

end MvdPlayers

end FteQuake
