import FteQuake.Lib.BitFlags
import Mathlib.Data.List.Basic

/-!
# Console variables

The setting of a cvar in `cvar.c`: the common setter with its latches, and the functions that force a
value on a cvar and keep the value of the user in `latched_string`. The strings are compared and copied
only, and the callbacks do not set cvars.

`userValue_kept` says that every run of them keeps the value of the user, and that the functions that
lift a restriction put it back, as long as the cvars they restore are not read-only.
-/

namespace FteQuake

open BitFlags List Option BitVec

namespace Cvars

/-! ## The flags of a cvar -/

/-- `CVAR_NOSET`. -/
def noset : BitVec 32 := 1#32 <<< 3

/-- `CVAR_MAPLATCH`. -/
def mapLatch : BitVec 32 := 1#32 <<< 4

/-- `CVAR_NOTFROMSERVER`. -/
def notFromServer : BitVec 32 := 1#32 <<< 7

/-- `CVAR_CHEAT`. -/
def cheat : BitVec 32 := 1#32 <<< 9

/-- `CVAR_SEMICHEAT`. -/
def semiCheat : BitVec 32 := 1#32 <<< 10

/-- `CVAR_RENDERERLATCH`. -/
def rendererLatch : BitVec 32 := 1#32 <<< 11

/-- `CVAR_SERVEROVERRIDE`. -/
def serverOverride : BitVec 32 := 1#32 <<< 12

/-- `CVAR_RULESETLATCH`. -/
def rulesetLatch : BitVec 32 := 1#32 <<< 15

/-- `CVAR_TEAMPLAYTAINT`. -/
def teamplayTaint : BitVec 32 := 1#32 <<< 21

/-- `CVAR_VIDEOLATCH`. -/
def videoLatch : BitVec 32 := 1#32 <<< 23

/-- `CVAR_RENDEREROVERRIDE`. -/
def rendererOverride : BitVec 32 := 1#32 <<< 25

/-- The flags for which a value may be latched. -/
def latchFlags : BitVec 32 :=
  mapLatch ||| videoLatch ||| rendererLatch ||| rendererOverride ||| rulesetLatch ||| cheat |||
    semiCheat ||| serverOverride

/-- The fields of `cvar_t` that the setting of its value reads. -/
structure Cvar where
  name : String
  name2 : Option String
  string : String
  latchedString : Option String
  flags : BitVec 32
  enginevalue : Option String
  defaultstr : Option String
  deriving DecidableEq

/-- What the rest of the program says about the client and the server. -/
structure Env where
  svState : Bool
  clsState : Bool
  /-- `qrenderer != QR_NONE` -/
  renderer : Bool
  allowCheats : Bool
  allowSemicheats : Bool
  /-- `Cmd_IsInsecure()` -/
  insecure : Bool

/-- The reasons to latch a value. -/
inductive Latch
  | nextMap
  | vidRestart
  | vidReload
  | notSupported
  | ruleset
  | cheatVariable
  deriving DecidableEq

/-- The reason for which `Cvar_SetCore` latches a value that is not forced. -/
def latchOf (env : Env) (flags : BitVec 32) : Option Latch :=
  if flags &&& mapLatch ≠ 0#32 ∧ (env.svState ∨ env.clsState) then some .nextMap
  else if flags &&& videoLatch ≠ 0#32 ∧ env.renderer then some .vidRestart
  else if flags &&& rendererLatch ≠ 0#32 ∧ env.renderer then some .vidReload
  else if flags &&& rendererOverride ≠ 0#32 ∧ env.renderer then some .notSupported
  else if flags &&& rulesetLatch ≠ 0#32 then some .ruleset
  else if flags &&& cheat ≠ 0#32 ∧ ¬env.allowCheats ∧ env.clsState then some .cheatVariable
  else if flags &&& semiCheat ≠ 0#32 ∧ ¬env.allowSemicheats ∧ env.clsState then
    some .cheatVariable
  else none

/-! ## Setting and forcing one cvar -/

/-- `Cvar_SetCore`: the cvar, and whether it was set. There is no result for a null value without a
default, which `strcmp` does not survive. -/
def setCore (env : Env) (var : Cvar) (value : Option String) (force : Bool) :
    Option (Cvar × Bool) :=
  if var.flags &&& noset ≠ 0#32 ∧ force = false then some (var, false)
  else
    match value.or var.defaultstr with
    | none => none
    | some value =>
      if force = false ∧ (latchOf env var.flags).isSome then
        if var.latchedString = some value then some (var, false)
        -- latched to the value it has: there is nothing to latch
        else if var.string = value then some ({ var with latchedString := none }, false)
        else some ({ var with latchedString := some value }, false)
      else
        some ({ var with
          flags := var.flags &&& ~~~teamplayTaint, string := value, latchedString := none }, true)

/-- `Cvar_Set`. -/
def set (env : Env) (var : Cvar) (value : Option String) : Option Cvar :=
  (setCore env var value false).map Prod.fst

/-- `Cvar_ForceSet`. -/
def forceSet (env : Env) (var : Cvar) (value : Option String) : Option Cvar :=
  (setCore env var value true).map Prod.fst

/-- The value of the user: what is latched, and else what is set. -/
def Cvar.userValue (var : Cvar) : String := var.latchedString.getD var.string

/-- The end of the functions that took a latch aside: it goes back unless it is the value. -/
def Cvar.relatch (var : Cvar) (latch : String) : Cvar :=
  if var.string = latch then var else { var with latchedString := some latch }

/-- `Cvar_ApplyLatchFlag`: the cvar, and whether nothing else latched it. -/
def applyLatchFlag (env : Env) (var : Cvar) (value : Option String)
    (newflag ignoreflags : BitVec 32) : Option (Cvar × Bool) := do
  let latch := var.userValue
  let flags := var.flags &&& ~~~newflag
  let ignore := flags &&& ignoreflags
  let var ← forceSet env { var with flags := flags - ignore, latchedString := none } value
  let var := { var with flags := var.flags ||| ignore }
  if var.latchedString.isSome then
    some ({ var with latchedString := none }.relatch latch, false)
  else
    some ({ var with flags := var.flags ||| newflag }.relatch latch, true)

/-- The value that `Cvar_ForceCheatVars` enforces, when it took `latch` aside. -/
def enforceCheat (env : Env) (semicheats absolutecheats : Bool) (latch : String) (var : Cvar) :
    Option Cvar :=
  if var.flags &&& cheat ≠ 0#32 then
    if absolutecheats then forceSet env var (some latch)
    else forceSet env var (var.enginevalue.or var.defaultstr)
  -- a ruleset is left to cover it
  else if var.flags &&& rulesetLatch ≠ 0#32 then some var
  else if semicheats then forceSet env var (some latch)
  else forceSet env var (some "")

/-- The body of the loop of `Cvar_ForceCheatVars`. -/
def forceCheatVar (env : Env) (semicheats absolutecheats : Bool) (var : Cvar) : Option Cvar :=
  if var.flags &&& (cheat ||| semiCheat) = 0#32 then some var
  else if var.flags &&& serverOverride ≠ 0#32 then some var
  else
    (enforceCheat env semicheats absolutecheats var.userValue
      { var with latchedString := none }).map (Cvar.relatch · var.userValue)

/-- What `Cvar_ApplyLatches` does with a latched value: it is set without regard to the flags. -/
def setLatched (env : Env) (latchflag : BitVec 32) (var : Cvar) : Option Cvar :=
  match var.latchedString with
  | none => some var
  | some latch =>
    (set env { var with flags := var.flags &&& ~~~latchflag } (some latch)).map
      fun after => { after with flags := var.flags }

/-- The body of the loop of `Cvar_ApplyLatches`. -/
def applyLatch (env : Env) (latchflag : BitVec 32) (clearflag : Bool) (var : Cvar) :
    Option Cvar :=
  if var.flags &&& latchflag = 0#32 then some var
  else
    (setLatched env latchflag var).map fun var =>
      { var with flags := if clearflag then var.flags &&& ~~~latchflag else var.flags }

/-- `Cvar_LockFromServer`. -/
def lockFromServer (env : Env) (var : Cvar) (str : Option String) : Option Cvar := do
  let oldlatch := var.userValue
  let flags := (var.flags ||| serverOverride) &&& ~~~rendererOverride
  let var ← forceSet env { var with flags := flags, latchedString := none } str
  some { var with latchedString := some oldlatch }

/-- `Cvar_LockUnsupportedRendererCvar`. -/
def lockUnsupportedRendererCvar (env : Env) (var : Cvar) (str : Option String) : Option Cvar :=
  if var.latchedString.isSome then some var
  else do
    let oldlatch := var.string
    let var ← forceSet env { var with flags := var.flags ||| rendererOverride } str
    some { var with latchedString := some oldlatch }

/-! ## All cvars -/

/-- `rulesetrule_t`: the condition is decided by the cvars, `-1` for an error. -/
structure Rule where
  rulecond : Option (List Cvar → ℤ)
  rulename : String
  rulevalue : String

/-- `ruleset_t`, which is compared by its address. -/
structure Ruleset where
  address : ℕ
  rule : List Rule

/-- The cvars, and `ruleset_current`. -/
structure World where
  vars : List Cvar
  rulesetCurrent : Option Ruleset

/-- `Cvar_FindVar`: the place of a cvar. -/
def findVar (vars : List Cvar) (name : String) : Option ℕ :=
  vars.findIdx? fun var =>
    var.name.toLower = name.toLower ∨ var.name2.map String.toLower = some name.toLower

/-- `Cvar_ApplyLatches`. -/
def applyLatches (env : Env) (latchflag : BitVec 32) (clearflag : Bool) (vars : List Cvar) :
    Option (List Cvar) :=
  vars.mapM (applyLatch env latchflag clearflag)

/-- What `Validation_Apply_Ruleset` finds for a rule: nothing to do, the cvar to lock, or that the
ruleset cannot be applied. -/
inductive RuleTarget
  | skip
  | lock (i : ℕ)
  | fail

/-- The checks of a rule. -/
def ruleTarget (env : Env) (vars : List Cvar) (rule : Rule) : RuleTarget :=
  let okay : ℤ := match rule.rulecond with | none => 1 | some cond => cond vars
  if okay < 0 then .fail
  else if okay = 0 then .skip
  else if rule.rulename = "ruleset_unsupported" then .fail
  else
    match findVar vars rule.rulename with
    | none => if rule.rulecond.isNone then .skip else .fail
    | some i =>
      match vars[i]? with
      | none => .fail
      | some var =>
        if var.flags &&& noset ≠ 0#32 then .fail
        else if var.flags &&& notFromServer ≠ 0#32 ∧ env.insecure then .fail
        else .lock i

/-- The cvars to lock, with the values they get, when every rule is acceptable. -/
def ruleTargets (env : Env) (vars : List Cvar) : List Rule → Option (List (ℕ × String))
  | [] => some []
  | rule :: rules =>
    match ruleTarget env vars rule with
    | .fail => none
    | .skip => ruleTargets env vars rules
    | .lock i => (ruleTargets env vars rules).map ((i, rule.rulevalue) :: ·)

/-- The flags that a ruleset does not respect. -/
def rulesetIgnores : BitVec 32 :=
  videoLatch ||| rendererLatch ||| serverOverride ||| mapLatch ||| cheat ||| semiCheat

/-- The loop of `Validation_Apply_Ruleset` that locks the cvars. -/
def lockRules (env : Env) : List (ℕ × String) → List Cvar → Option (List Cvar)
  | [], vars => some vars
  | (i, value) :: targets, vars => do
    let var ← vars[i]?
    let (var, okay) ← applyLatchFlag env var (some value) rulesetLatch rulesetIgnores
    if okay then lockRules env targets (vars.set i var) else some (vars.set i var)

/-- `Validation_Apply_Ruleset`, where `rs` is the ruleset that was asked for. -/
def validationApplyRuleset (env : Env) (rs : Option Ruleset) (w : World) : Option World :=
  if w.rulesetCurrent.map Ruleset.address = rs.map Ruleset.address then some w
  else do
    let vars ← applyLatches env rulesetLatch true w.vars
    match rs with
    | none => some ⟨vars, none⟩
    | some rs =>
      match ruleTargets env vars rs.rule with
      | none => some ⟨vars, none⟩
      | some targets => do
        let vars ← lockRules env targets vars
        some ⟨vars, some rs⟩

/-- `Cvar_ForceCheatVars`. -/
def forceCheatVars (env : Env) (semicheats absolutecheats : Bool) (rs : Option Ruleset)
    (w : World) : Option World := do
  let vars ← w.vars.mapM (forceCheatVar env semicheats absolutecheats)
  validationApplyRuleset env rs { w with vars := vars }

/-- The calls that a run is made of; `i` is the place of the cvar. -/
inductive Op
  | set (i : ℕ) (value : Option String)
  | lockFromServer (i : ℕ) (str : Option String)
  | lockUnsupportedRendererCvar (i : ℕ) (str : Option String)
  | applyLatchFlag (i : ℕ) (value : Option String) (newflag ignoreflags : BitVec 32)
  | forceCheatVars (semicheats absolutecheats : Bool) (rs : Option Ruleset)
  | applyLatches (latchflag : BitVec 32) (clearflag : Bool)

/-- A call on one cvar. -/
def World.modify (w : World) (i : ℕ) (f : Cvar → Option Cvar) : Option World := do
  let var ← w.vars[i]?
  let var ← f var
  some { w with vars := w.vars.set i var }

/-- One call. -/
def exec (env : Env) (w : World) : Op → Option World
  | .set i value => w.modify i (Cvars.set env · value)
  | .lockFromServer i str => w.modify i (Cvars.lockFromServer env · str)
  | .lockUnsupportedRendererCvar i str => w.modify i (Cvars.lockUnsupportedRendererCvar env · str)
  | .applyLatchFlag i value newflag ignoreflags =>
    w.modify i fun var =>
      (Cvars.applyLatchFlag env var value newflag ignoreflags).map Prod.fst
  | .forceCheatVars semicheats absolutecheats rs =>
    Cvars.forceCheatVars env semicheats absolutecheats rs w
  | .applyLatches latchflag clearflag => do
    let vars ← Cvars.applyLatches env latchflag clearflag w.vars
    some { w with vars := vars }

/-! ## What the setters do -/

theorem forceSet_eq_some {env : Env} {var var' : Cvar} {value : Option String} :
    forceSet env var value = some var' ↔ ∃ v, value.or var.defaultstr = some v ∧
      var' = { var with
        flags := var.flags &&& ~~~teamplayTaint, string := v, latchedString := none } := by
  simp only [forceSet, setCore, Bool.true_eq_false, and_false, false_and, if_false]
  cases value.or var.defaultstr with
  | none => simp
  | some v => simp [eq_comm]

/-- The value that a call of `Cvar_Set` asks for, unless it is refused as read-only. -/
def accepted (var : Cvar) (value : Option String) : Option String :=
  if var.flags &&& noset ≠ 0#32 then none else value.or var.defaultstr

/-- **What `Cvar_Set` can do**: it is refused, or the value is set, or it is latched for a reason. -/
theorem set_cases {env : Env} {var var' : Cvar} {value : Option String} (h : set env var value = some var') :
    (var.flags &&& noset ≠ 0#32 ∧ var' = var) ∨
      ∃ v, accepted var value = some v ∧ var'.userValue = v ∧ var'.defaultstr = var.defaultstr ∧
        ((latchOf env var.flags = none ∧ var'.string = v ∧ var'.latchedString = none ∧
            var'.flags = var.flags &&& ~~~teamplayTaint) ∨
          ((latchOf env var.flags).isSome ∧ var'.flags = var.flags)) := by
  rw [set, setCore] at h
  by_cases hro : var.flags &&& noset ≠ 0#32
  · rw [if_pos ⟨hro, rfl⟩] at h
    exact .inl ⟨hro, (some.inj h).symm⟩
  rw [if_neg fun e => hro e.1] at h
  right
  cases hv : value.or var.defaultstr with
  | none => simp [hv] at h
  | some v =>
    refine ⟨v, by rw [accepted, if_neg hro, hv], ?_⟩
    simp only [hv] at h
    by_cases hlatch : (latchOf env var.flags).isSome
    · rw [if_pos ⟨trivial, hlatch⟩] at h
      split_ifs at h with hsame hstring
      · obtain rfl := some.inj h
        exact ⟨by simp [Cvar.userValue, hsame], rfl, .inr ⟨hlatch, rfl⟩⟩
      · obtain rfl := some.inj h
        exact ⟨by simpa [Cvar.userValue] using hstring, rfl, .inr ⟨hlatch, rfl⟩⟩
      · obtain rfl := some.inj h
        exact ⟨by simp [Cvar.userValue], rfl, .inr ⟨hlatch, rfl⟩⟩
    · rw [if_neg fun e => hlatch e.2] at h
      obtain rfl := some.inj h
      refine ⟨by simp [Cvar.userValue], rfl, .inl ⟨?_, rfl, rfl, rfl⟩⟩
      simpa using hlatch

/-- A value is latched for one of the flags only. -/
theorem and_latchFlags_of_latchOf {env : Env} {flags : BitVec 32}
    (h : (latchOf env flags).isSome) : flags &&& latchFlags ≠ 0#32 := by
  rw [latchOf] at h
  split_ifs at h with h₁ h₂ h₃ h₄ h₅ h₆ h₇
  · exact and_ne_zero_of_subset (by decide) h₁.1
  · exact and_ne_zero_of_subset (by decide) h₂.1
  · exact and_ne_zero_of_subset (by decide) h₃.1
  · exact and_ne_zero_of_subset (by decide) h₄.1
  · exact and_ne_zero_of_subset (by decide) h₅
  · exact and_ne_zero_of_subset (by decide) h₆.1
  · exact and_ne_zero_of_subset (by decide) h₇.1
  · cases h

@[simp] theorem Cvar.relatch_flags (var : Cvar) (latch : String) :
    (var.relatch latch).flags = var.flags := by
  rw [Cvar.relatch]
  split_ifs <;> rfl

theorem Cvar.userValue_relatch {var : Cvar} (h : var.latchedString = none) (latch : String) :
    (var.relatch latch).userValue = latch := by
  rw [Cvar.relatch]
  split_ifs with hs
  · simp [Cvar.userValue, h, hs]
  · simp [Cvar.userValue]

theorem Cvar.relatch_of_eq {var : Cvar} {latch : String} (h : var.string = latch) :
    var.relatch latch = var := if_pos h

/-! ## The value of the user is kept -/

/-- The state of a cvar: the value of the user is `user`, and if it is latched then one of the flags
`concerned` is there to bring it back. -/
structure Kept (var : Cvar) (user : String) (concerned : BitVec 32) : Prop where
  value : var.userValue = user
  flags : var.latchedString ≠ none → var.flags &&& concerned ≠ 0#32
  latching : ∀ f, f &&& latchFlags ≠ 0#32 → f &&& concerned ≠ 0#32

variable {env : Env} {var var' : Cvar} {user : String} {concerned : BitVec 32}

theorem Kept.of_none (h : Kept var user concerned) (hvalue : var'.userValue = user)
    (hnone : var'.latchedString = none) : Kept var' user concerned :=
  ⟨hvalue, fun hne => absurd hnone hne, h.latching⟩

/-- A flag of `latchFlags` that stays. -/
theorem Kept.of_flag (h : Kept var user concerned) (hvalue : var'.userValue = user)
    (hflag : var'.flags &&& latchFlags ≠ 0#32) : Kept var' user concerned :=
  ⟨hvalue, fun _ => h.latching _ hflag, h.latching⟩

theorem Kept.mono (h : Kept var user concerned) (more : BitVec 32) :
    Kept var user (concerned ||| more) := by
  refine ⟨h.value, fun hne => ?_, fun f hf => ?_⟩
  · rw [BitVec.and_comm]
    exact or_and_ne_zero (by rw [BitVec.and_comm]; exact h.flags hne)
  · rw [BitVec.and_comm]
    exact or_and_ne_zero (by rw [BitVec.and_comm]; exact h.latching f hf)

theorem Kept.set {value : Option String} (h : Kept var user concerned) (hset : set env var value = some var') :
    Kept var' ((accepted var value).getD user) concerned := by
  rcases set_cases hset with ⟨hro, rfl⟩ | ⟨v, hacc, hvalue, -, hcase⟩
  · rw [accepted, if_pos hro]
    exact h
  · rw [hacc, getD_some]
    refine ⟨hvalue, fun hne => ?_, h.latching⟩
    rcases hcase with ⟨-, -, hnone, -⟩ | ⟨hlatch, hflags⟩
    · exact absurd hnone hne
    · rw [hflags]
      exact h.latching _ (and_latchFlags_of_latchOf hlatch)

/-- The flag that a lock sets survives the end of a team-play taint. -/
theorem and_not_taint_ne_zero {f : BitVec 32} (h : f &&& latchFlags ≠ 0#32) :
    f &&& ~~~teamplayTaint &&& latchFlags ≠ 0#32 := by
  rwa [BitFlags.and_not_and (by decide)]

theorem Kept.lockFromServer {str : Option String} (h : Kept var user concerned)
    (hlock : lockFromServer env var str = some var') : Kept var' user concerned := by
  simp only [Cvars.lockFromServer, Option.bind_eq_bind, Option.bind_eq_some_iff] at hlock
  obtain ⟨forced, hforce, hvar⟩ := hlock
  obtain ⟨v, -, rfl⟩ := forceSet_eq_some.1 hforce
  obtain rfl := some.inj hvar
  refine h.of_flag (by simpa [Cvar.userValue] using h.value) (and_not_taint_ne_zero ?_)
  have hserver : (var.flags ||| serverOverride) &&& ~~~rendererOverride &&& serverOverride ≠ 0#32 := by
    rw [BitFlags.and_not_and (by decide)]
    exact or_and_ne_zero_right (by decide)
  exact and_ne_zero_of_subset (by decide) hserver

theorem Kept.lockUnsupportedRendererCvar {str : Option String} (h : Kept var user concerned)
    (hlock : lockUnsupportedRendererCvar env var str = some var') : Kept var' user concerned := by
  rw [Cvars.lockUnsupportedRendererCvar] at hlock
  split_ifs at hlock with hsome
  · obtain rfl := some.inj hlock
    exact h
  simp only [Option.bind_eq_bind, Option.bind_eq_some_iff] at hlock
  obtain ⟨forced, hforce, hvar⟩ := hlock
  obtain ⟨v, -, rfl⟩ := forceSet_eq_some.1 hforce
  obtain rfl := some.inj hvar
  refine h.of_flag ?_ (and_not_taint_ne_zero (or_and_ne_zero_right (by decide)))
  have hnone : var.latchedString = none := by simpa using hsome
  simpa [Cvar.userValue, hnone] using h.value

theorem applyLatchFlag_eq_some {value : Option String} {newflag ignoreflags : BitVec 32}
    {okay : Bool} (h : applyLatchFlag env var value newflag ignoreflags = some (var', okay)) :
    okay = true ∧ var'.userValue = var.userValue ∧ ∃ f, var'.flags = f ||| newflag := by
  simp only [applyLatchFlag, Option.bind_eq_bind, Option.bind_eq_some_iff] at h
  obtain ⟨forced, hforce, hvar⟩ := h
  obtain ⟨v, -, rfl⟩ := forceSet_eq_some.1 hforce
  simp only [isSome_none, Bool.false_eq_true, if_false, Option.some.injEq, Prod.mk.injEq] at hvar
  obtain ⟨rfl, rfl⟩ := hvar
  exact ⟨rfl, Cvar.userValue_relatch rfl _, _, Cvar.relatch_flags _ _⟩

theorem Kept.applyLatchFlag {value : Option String} {newflag ignoreflags : BitVec 32} {okay : Bool}
    (h : Kept var user concerned) (hnew : newflag &&& concerned ≠ 0#32)
    (happly : applyLatchFlag env var value newflag ignoreflags = some (var', okay)) :
    Kept var' user concerned := by
  obtain ⟨-, hvalue, f, hflags⟩ := applyLatchFlag_eq_some happly
  refine ⟨hvalue.trans h.value, fun _ => ?_, h.latching⟩
  rw [hflags]
  exact or_and_ne_zero_right hnew

/-- **What the loop of `Cvar_ForceCheatVars` can do to a cvar.** -/
theorem forceCheatVar_cases {semicheats absolutecheats : Bool}
    (h : forceCheatVar env semicheats absolutecheats var = some var') :
    (var' = var ∧ (var.flags &&& (cheat ||| semiCheat) = 0#32 ∨
        var.flags &&& serverOverride ≠ 0#32)) ∨
      var.flags &&& (cheat ||| semiCheat) ≠ 0#32 ∧
        ((var.flags &&& cheat = 0#32 ∧ var.flags &&& rulesetLatch ≠ 0#32 ∧
            var' = { var with latchedString := none }.relatch var.userValue) ∨
          ∃ value forced, forceSet env { var with latchedString := none } value = some forced ∧
            var' = forced.relatch var.userValue ∧
            (var.flags &&& cheat = 0#32 → var.flags &&& rulesetLatch = 0#32) ∧
            (semicheats = true → absolutecheats = true → value = some var.userValue)) := by
  rw [forceCheatVar] at h
  split_ifs at h with hnone hserver
  · exact .inl ⟨(some.inj h).symm, .inl hnone⟩
  · exact .inl ⟨(some.inj h).symm, .inr hserver⟩
  obtain ⟨forced, hforced, hvar⟩ := map_eq_some_iff.1 h
  refine .inr ⟨hnone, ?_⟩
  rw [enforceCheat] at hforced
  split_ifs at hforced with hcheat habs hrule hsemi
  · exact .inr ⟨_, forced, hforced, hvar.symm, fun h => absurd h hcheat, fun _ _ => rfl⟩
  · exact .inr ⟨_, forced, hforced, hvar.symm, fun h => absurd h hcheat, fun _ h => absurd h habs⟩
  · obtain rfl := some.inj hforced
    exact .inl ⟨not_not.1 hcheat, hrule, hvar.symm⟩
  · exact .inr ⟨_, forced, hforced, hvar.symm, fun _ => not_not.1 hrule, fun _ _ => rfl⟩
  · exact .inr ⟨_, forced, hforced, hvar.symm, fun _ => not_not.1 hrule, fun h => absurd h hsemi⟩

/-- **What `Cvar_ApplyLatches` can do to a cvar.** -/
theorem applyLatch_cases {latchflag : BitVec 32} {clearflag : Bool}
    (h : applyLatch env latchflag clearflag var = some var') :
    (var.flags &&& latchflag = 0#32 ∧ var' = var) ∨
      var.flags &&& latchflag ≠ 0#32 ∧
        var'.flags = (if clearflag then var.flags &&& ~~~latchflag else var.flags) ∧
        ((var.latchedString = none ∧ var'.latchedString = none ∧ var'.string = var.string) ∨
          ∃ latch after, var.latchedString = some latch ∧
            set env { var with flags := var.flags &&& ~~~latchflag } (some latch) = some after ∧
            var'.latchedString = after.latchedString ∧ var'.string = after.string) := by
  rw [applyLatch] at h
  by_cases hflag : var.flags &&& latchflag = 0#32
  · rw [if_pos hflag] at h
    exact .inl ⟨hflag, (some.inj h).symm⟩
  rw [if_neg hflag] at h
  obtain ⟨mid, hmid, rfl⟩ := map_eq_some_iff.1 h
  refine .inr ⟨hflag, ?_⟩
  rw [setLatched] at hmid
  cases hlatch : var.latchedString with
  | none =>
    simp only [hlatch] at hmid
    obtain rfl := some.inj hmid
    exact ⟨rfl, .inl ⟨rfl, hlatch, rfl⟩⟩
  | some latch =>
    simp only [hlatch] at hmid
    obtain ⟨after, hset, rfl⟩ := map_eq_some_iff.1 hmid
    exact ⟨rfl, .inr ⟨latch, after, rfl, hlatch ▸ hset, rfl, rfl⟩⟩

theorem Kept.forceCheatVar {semicheats absolutecheats : Bool} (h : Kept var user concerned)
    (hforce : forceCheatVar env semicheats absolutecheats var = some var') :
    Kept var' user concerned := by
  rcases forceCheatVar_cases hforce with ⟨rfl, -⟩ | ⟨hflag, hcase⟩
  · exact h
  have hlatch : var.flags &&& latchFlags ≠ 0#32 := and_ne_zero_of_subset (by decide) hflag
  rcases hcase with ⟨-, -, rfl⟩ | ⟨value, forced, hset, rfl, -, -⟩
  · exact h.of_flag ((Cvar.userValue_relatch rfl _).trans h.value) (by rw [Cvar.relatch_flags]; exact hlatch)
  · obtain ⟨v, -, rfl⟩ := forceSet_eq_some.1 hset
    exact h.of_flag ((Cvar.userValue_relatch rfl _).trans h.value)
      (by rw [Cvar.relatch_flags]; exact and_not_taint_ne_zero hlatch)

/-- A flag outside of the mask is there whether the mask is cleared or not. -/
theorem clear_and_ne_zero {f m g : BitVec 32} {clearflag : Bool} (h : f &&& ~~~m &&& g ≠ 0#32) :
    (if clearflag then f &&& ~~~m else f) &&& g ≠ 0#32 := by
  obtain ⟨i, hi, hg⟩ := and_ne_zero_iff.1 h
  refine and_ne_zero_iff.2 ⟨i, ?_, hg⟩
  split_ifs
  · exact hi
  · simp only [getLsbD_and, Bool.and_eq_true] at hi
    exact hi.1

theorem Kept.applyLatch {latchflag : BitVec 32} {clearflag : Bool} (h : Kept var user concerned)
    (hwritable : var.flags &&& latchflag ≠ 0#32 → var.latchedString ≠ none →
      var.flags &&& ~~~latchflag &&& noset = 0#32 ∨
        var.flags &&& ~~~latchflag &&& latchFlags ≠ 0#32)
    (happly : applyLatch env latchflag clearflag var = some var') :
    Kept var' user concerned := by
  rcases applyLatch_cases happly with ⟨-, rfl⟩ | ⟨hflag, hflags, hcase⟩
  · exact h
  rcases hcase with ⟨hnone, hnone', hstring⟩ | ⟨latch, after, hlatch, hset, hlatch', hstring'⟩
  · refine h.of_none ?_ hnone'
    rw [← h.value, Cvar.userValue, Cvar.userValue, hnone', hnone, hstring]
  have huser : latch = user := by rw [← h.value, Cvar.userValue, hlatch, getD_some]
  have hvalue : var'.userValue = after.userValue := by
    rw [Cvar.userValue, Cvar.userValue, hlatch', hstring']
  have hne : var.latchedString ≠ none := by rw [hlatch]; exact some_ne_none _
  rcases set_cases hset with ⟨hro, rfl⟩ | ⟨v, hacc, hv, -, hcase⟩
  · -- refused: another flag has to be there for what stays latched
    have hkeep : var.flags &&& ~~~latchflag &&& latchFlags ≠ 0#32 :=
      (hwritable hflag hne).resolve_left hro
    refine h.of_flag (hvalue.trans h.value) ?_
    rw [hflags]
    exact clear_and_ne_zero hkeep
  have hvu : v = user := by
    rw [accepted] at hacc
    split_ifs at hacc
    exact (some.inj hacc).symm.trans huser
  rcases hcase with ⟨-, -, hnone, -⟩ | ⟨hwhy, -⟩
  · exact h.of_none (hvalue.trans (hv.trans hvu)) (hlatch'.trans hnone)
  · refine h.of_flag (hvalue.trans (hv.trans hvu)) ?_
    rw [hflags]
    exact clear_and_ne_zero (and_latchFlags_of_latchOf hwhy)

/-- **`Cvar_ApplyLatches` puts the value of the user back**, when no other flag latches it. -/
theorem Kept.released {latchflag : BitVec 32} {clearflag : Bool} (h : Kept var user concerned)
    (hflag : concerned &&& ~~~latchflag = 0#32 ∨ var.flags &&& latchflag ≠ 0#32)
    (hwritable : var.flags &&& latchflag ≠ 0#32 → var.latchedString ≠ none →
      var.flags &&& ~~~latchflag &&& noset = 0#32)
    (hfree : latchOf env (var.flags &&& ~~~latchflag) = none)
    (happly : Cvars.applyLatch env latchflag clearflag var = some var') :
    var'.string = user ∧ var'.latchedString = none := by
  have hstring : var.latchedString = none → var.string = user := fun hnone => by
    rw [← h.value, Cvar.userValue, hnone, getD_none]
  rcases applyLatch_cases happly with ⟨hno, hsame⟩ | ⟨hyes, -, hcase⟩
  · have hnone : var.latchedString = none := by
      by_contra hne
      have hclear := hflag.resolve_right (not_not.2 hno)
      exact and_ne_zero_of_subset hclear (h.flags hne) hno
    rw [hsame]
    exact ⟨hstring hnone, hnone⟩
  rcases hcase with ⟨hnone, hnone', hsame⟩ | ⟨latch, after, hlatch, hset, hlatch', hstring'⟩
  · exact ⟨hsame.trans (hstring hnone), hnone'⟩
  have huser : latch = user := by rw [← h.value, Cvar.userValue, hlatch, getD_some]
  have hro := hwritable hyes (by rw [hlatch]; exact some_ne_none _)
  rcases set_cases hset with ⟨hro', -⟩ | ⟨v, hacc, -, -, hcase⟩
  · exact absurd hro hro'
  rw [accepted, if_neg (not_not.2 hro)] at hacc
  rcases hcase with ⟨-, hv, hnone, -⟩ | ⟨hwhy, -⟩
  · exact ⟨hstring'.trans (hv.trans ((some.inj hacc).symm.trans huser)), hlatch'.trans hnone⟩
  · rw [hfree] at hwhy
    cases hwhy

/-! ## The cvar at one place of the table -/

theorem mapM_getElem? {f : Cvar → Option Cvar} {vars vars' : List Cvar}
    (h : vars.mapM f = some vars') {i : ℕ} (hi : vars[i]? = some var) :
    ∃ var', vars'[i]? = some var' ∧ f var = some var' := by
  induction vars generalizing vars' i with
  | nil => simp at hi
  | cons head tail ih =>
    simp only [List.mapM_cons, Option.bind_eq_bind, Option.bind_eq_some_iff, Option.pure_def, Option.some.injEq] at h
    obtain ⟨head', hhead, tail', htail, rfl⟩ := h
    cases i with
    | zero =>
      obtain rfl : head = var := by simpa using hi
      exact ⟨head', rfl, hhead⟩
    | succ i => exact ih htail (by simpa using hi)

theorem World.modify_getElem? {w w' : World} {i j : ℕ} {f : Cvar → Option Cvar}
    (h : w.modify j f = some w') (hi : w.vars[i]? = some var) :
    ∃ var', w'.vars[i]? = some var' ∧ (j = i → f var = some var') ∧ (j ≠ i → var' = var) := by
  simp only [World.modify, Option.bind_eq_bind, Option.bind_eq_some_iff, Option.some.injEq] at h
  obtain ⟨old, hold, new, hnew, rfl⟩ := h
  by_cases hji : j = i
  · subst hji
    obtain rfl := some.inj (hold.symm.trans hi)
    have hlt : j < w.vars.length := (List.getElem?_eq_some_iff.1 hi).1
    exact ⟨new, List.getElem?_set_self hlt, fun _ => hnew, fun hne => absurd rfl hne⟩
  · exact ⟨var, (getElem?_set_ne hji).trans hi, fun he => absurd he hji, fun _ => rfl⟩

/-- What the rules of a ruleset do to a cvar: nothing, or they lock it. -/
structure Ruled (var var' : Cvar) : Prop where
  kept : ∀ user concerned, Kept var user concerned → Kept var' user concerned
  locked : var' = var ∨ var'.flags &&& rulesetLatch ≠ 0#32

theorem lockRules_getElem? {targets : List (ℕ × String)} {vars vars' : List Cvar} {i : ℕ}
    (h : lockRules env targets vars = some vars') (hi : vars[i]? = some var) :
    ∃ var', vars'[i]? = some var' ∧ Ruled var var' := by
  induction targets generalizing vars var with
  | nil =>
    obtain rfl := some.inj h
    exact ⟨var, hi, fun _ _ => id, .inl rfl⟩
  | cons target targets ih =>
    obtain ⟨j, value⟩ := target
    simp only [lockRules, Option.bind_eq_bind, Option.bind_eq_some_iff] at h
    obtain ⟨old, hold, ⟨new, okay⟩, hnew, hrest⟩ := h
    obtain ⟨rfl, -, f, hf⟩ := applyLatchFlag_eq_some hnew
    rw [if_pos rfl] at hrest
    have hlocked : new.flags &&& rulesetLatch ≠ 0#32 := by
      rw [hf]
      exact or_and_ne_zero_right (by decide)
    by_cases hji : j = i
    · subst hji
      obtain rfl := some.inj (hold.symm.trans hi)
      have hlt : j < vars.length := (List.getElem?_eq_some_iff.1 hi).1
      obtain ⟨var', hvar', hruled⟩ := ih hrest (List.getElem?_set_self hlt)
      refine ⟨var', hvar', fun user concerned hkept => hruled.kept _ _ ?_, .inr ?_⟩
      · exact hkept.applyLatchFlag (hkept.latching _ (by decide)) hnew
      · rcases hruled.locked with rfl | hl
        · exact hlocked
        · exact hl
    · exact ih hrest ((getElem?_set_ne hji).trans hi)

/-- **What `Validation_Apply_Ruleset` does to a cvar.** -/
theorem validationApplyRuleset_getElem? {rs : Option Ruleset} {w w' : World} {i : ℕ}
    (h : validationApplyRuleset env rs w = some w') (hi : w.vars[i]? = some var) :
    ∃ mid var', w'.vars[i]? = some var' ∧ Ruled mid var' ∧
      (mid = var ∨ w.rulesetCurrent.map Ruleset.address ≠ rs.map Ruleset.address ∧
        applyLatch env rulesetLatch true var = some mid) := by
  have hsame : ∀ v : Cvar, Ruled v v := fun v => ⟨fun _ _ => id, .inl rfl⟩
  rw [validationApplyRuleset] at h
  split_ifs at h with hcur
  · obtain rfl := some.inj h
    exact ⟨var, var, hi, hsame var, .inl rfl⟩
  simp only [Option.bind_eq_bind, Option.bind_eq_some_iff] at h
  obtain ⟨vars, hvars, hrest⟩ := h
  obtain ⟨mid, hmid, happly⟩ := mapM_getElem? hvars hi
  refine ⟨mid, ?_⟩
  split at hrest
  · obtain rfl := some.inj hrest
    exact ⟨mid, hmid, hsame mid, .inr ⟨hcur, happly⟩⟩
  · split at hrest
    · obtain rfl := some.inj hrest
      exact ⟨mid, hmid, hsame mid, .inr ⟨hcur, happly⟩⟩
    · simp only [Option.bind_eq_some_iff, Option.some.injEq] at hrest
      obtain ⟨vars', hlock, rfl⟩ := hrest
      obtain ⟨var', hvar', hruled⟩ := lockRules_getElem? hlock hmid
      exact ⟨var', hvar', hruled, .inr ⟨hcur, happly⟩⟩

/-! ## Runs -/

/-- The value of the user after a call, at the place `i`. -/
def userAfter (i : ℕ) (w : World) (user : String) : Op → String
  | .set j value =>
    if j = i then (w.vars[i]?.bind (accepted · value)).getD user else user
  | _ => user

/-- The flags that latch the cvar at the place `i`: those for which a value may be latched, and those
that `Cvar_ApplyLatchFlag` was given. -/
def concernedAfter (i : ℕ) (concerned : BitVec 32) : Op → BitVec 32
  | .applyLatchFlag j _ newflag _ => if j = i then concerned ||| newflag else concerned
  | _ => concerned

/-- The condition of a call: the cvar that `Cvar_ApplyLatches` is to restore is not read-only, and
`Cvar_ApplyLatchFlag` has a flag to latch it with. -/
def Restorable (i : ℕ) (w : World) : Op → Prop
  | .applyLatchFlag j _ newflag _ => j = i → newflag ≠ 0#32
  | .applyLatches latchflag _ => ∀ var, w.vars[i]? = some var →
    var.flags &&& latchflag ≠ 0#32 → var.latchedString ≠ none →
      var.flags &&& ~~~latchflag &&& noset = 0#32
  | .forceCheatVars _ _ rs => w.rulesetCurrent.map Ruleset.address ≠ rs.map Ruleset.address →
    ∀ var, w.vars[i]? = some var → var.flags &&& cheat = 0#32 →
      var.flags &&& rulesetLatch ≠ 0#32 → var.latchedString ≠ none → var.flags &&& noset = 0#32
  | _ => True

/-- Runs from `w₀`, in an environment that changes with each call: the state that is reached, the value
of the user of the cvar at the place `i`, and the flags that latch it. -/
inductive Run (i : ℕ) (C : World → Op → Prop) (w₀ : World) : World → String → BitVec 32 → Prop
  | start {var : Cvar} (hvar : w₀.vars[i]? = some var)
      (hlatched : var.latchedString ≠ none → var.flags &&& latchFlags ≠ 0#32) :
      Run i C w₀ w₀ var.userValue latchFlags
  | step {w w' : World} {user : String} {concerned : BitVec 32} {env : Env} {op : Op}
      (hrun : Run i C w₀ w user concerned) (hop : C w op) (hexec : exec env w op = some w') :
      Run i C w₀ w' (userAfter i w user op) (concernedAfter i concerned op)

/-- A call lifts the last restriction of the cvar at the place `i`. -/
def Lifts (i : ℕ) (concerned : BitVec 32) (env : Env) (w w' : World) : Op → Prop
  | .applyLatches latchflag _ => ∃ var, w.vars[i]? = some var ∧
    (concerned &&& ~~~latchflag = 0#32 ∨ var.flags &&& latchflag ≠ 0#32) ∧
    latchOf env (var.flags &&& ~~~latchflag) = none
  | .forceCheatVars true true _ => ∃ var var', w.vars[i]? = some var ∧ w'.vars[i]? = some var' ∧
    var.flags &&& (cheat ||| semiCheat) ≠ 0#32 ∧
    var'.flags &&& (serverOverride ||| rulesetLatch) = 0#32 ∧ latchOf env var'.flags = none
  | _ => False

/-- The value of the user is set, and nothing is latched. -/
def Put (user : String) (var : Cvar) : Prop := var.string = user ∧ var.latchedString = none

/-- The loop of `Cvar_ForceCheatVars` keeps the condition of its ruleset. -/
theorem writable_forceCheatVar {semicheats absolutecheats : Bool}
    (hforce : forceCheatVar env semicheats absolutecheats var = some var')
    (hop : var.flags &&& cheat = 0#32 → var.flags &&& rulesetLatch ≠ 0#32 →
      var.latchedString ≠ none → var.flags &&& noset = 0#32)
    (hrule : var'.flags &&& rulesetLatch ≠ 0#32) (hlatched : var'.latchedString ≠ none) :
    var'.flags &&& ~~~rulesetLatch &&& noset = 0#32 ∨
      var'.flags &&& ~~~rulesetLatch &&& cheat ≠ 0#32 := by
  rw [BitFlags.and_not_and (by decide), BitFlags.and_not_and (by decide)]
  rcases forceCheatVar_cases hforce with ⟨rfl, -⟩ | ⟨-, ⟨hcheat, hr, rfl⟩ | hforced⟩
  · by_cases hcheat : var'.flags &&& cheat = 0#32
    · exact .inl (hop hcheat hrule hlatched)
    · exact .inr hcheat
  · rw [Cvar.relatch_flags]
    refine .inl (hop hcheat hr fun hnone => hlatched ?_)
    rw [Cvar.relatch_of_eq]
    simp [Cvar.userValue, hnone]
  · obtain ⟨value, forced, hset, rfl, hcheat, -⟩ := hforced
    obtain ⟨v, -, rfl⟩ := forceSet_eq_some.1 hset
    simp only [Cvar.relatch_flags] at hrule ⊢
    rw [BitFlags.and_not_and (by decide)] at hrule ⊢
    rw [BitFlags.and_not_and (by decide)]
    exact .inr fun h => hrule (hcheat h)

/-- **`Cvar_ForceCheatVars(true, true)` puts the value of the user back**, when neither the server nor a
ruleset holds the cvar behind it. -/
theorem Kept.freed {forced mid : Cvar} (h : Kept var user concerned)
    (hforce : Cvars.forceCheatVar env true true var = some forced) (hruled : Ruled mid var')
    (hmid : mid = forced ∨ (forced.flags &&& rulesetLatch ≠ 0#32 → forced.latchedString ≠ none →
        forced.flags &&& ~~~rulesetLatch &&& noset = 0#32 ∨
          forced.flags &&& ~~~rulesetLatch &&& cheat ≠ 0#32) ∧
      Cvars.applyLatch env rulesetLatch true forced = some mid)
    (hflag : var.flags &&& (cheat ||| semiCheat) ≠ 0#32)
    (hheld : var'.flags &&& (serverOverride ||| rulesetLatch) = 0#32)
    (hfree : latchOf env var'.flags = none) : Put user var' := by
  have hkept := h.forceCheatVar hforce
  have hrule : var'.flags &&& rulesetLatch = 0#32 := by
    by_contra hne
    exact and_ne_zero_of_subset (by decide) hne hheld
  obtain rfl : var' = mid := hruled.locked.resolve_right (not_not.2 hrule)
  have hserver : forced.flags &&& serverOverride = 0#32 := by
    by_contra hne
    refine absurd hheld (and_ne_zero_of_subset (f := serverOverride) (by decide) ?_)
    rcases hmid with rfl | ⟨-, happly⟩
    · exact hne
    rcases applyLatch_cases happly with ⟨-, rfl⟩ | ⟨-, hflags, -⟩
    · exact hne
    · rwa [hflags, if_pos rfl, BitFlags.and_not_and (by decide)]
  rcases forceCheatVar_cases hforce with ⟨rfl, hno⟩ | ⟨-, ⟨hcheat, hr, hvar⟩ | hforced⟩
  · exact absurd (hno.resolve_left hflag) (not_not.2 hserver)
  · -- left to the ruleset, which has just been lifted
    have hflags : forced.flags = var.flags := by rw [hvar, Cvar.relatch_flags]
    obtain ⟨hwritable, happly⟩ := hmid.resolve_left fun he => hr (by rw [← hflags, ← he, hrule])
    have hr' : forced.flags &&& rulesetLatch ≠ 0#32 := by rwa [hflags]
    refine hkept.released (.inr hr') (fun _ hne => ?_) ?_ happly
    · refine (hwritable hr' hne).resolve_right (not_not.2 ?_)
      rw [BitFlags.and_not_and (by decide), hflags, hcheat]
    · rcases applyLatch_cases happly with ⟨hr₀, -⟩ | ⟨-, hflags', -⟩
      · exact absurd hr₀ hr'
      · rwa [hflags', if_pos rfl] at hfree
  · obtain ⟨value, set, hset, rfl, -, hvalue⟩ := hforced
    obtain ⟨v, hv, rfl⟩ := forceSet_eq_some.1 hset
    obtain rfl : var.userValue = v := by simpa [hvalue rfl rfl] using hv
    rw [Cvar.relatch_of_eq rfl] at hmid
    rcases hmid with rfl | ⟨-, happly⟩
    · exact ⟨h.value, rfl⟩
    rcases applyLatch_cases happly with ⟨-, rfl⟩ | ⟨-, -, ⟨-, hnone, hsame⟩ | ⟨latch, _, hlatch, -⟩⟩
    · exact ⟨h.value, rfl⟩
    · exact ⟨hsame.trans h.value, hnone⟩
    · cases hlatch

/-- **A call keeps the value of the user**, and puts it back when it lifts the last restriction. -/
theorem Kept.exec {w w' : World} {op : Op} {i : ℕ} (hi : w.vars[i]? = some var)
    (h : Kept var user concerned) (hop : Restorable i w op) (hexec : exec env w op = some w') :
    ∃ var', w'.vars[i]? = some var' ∧
      Kept var' (userAfter i w user op) (concernedAfter i concerned op) ∧
      (Lifts i concerned env w w' op → Put user var') := by
  cases op with
  | set j value =>
    obtain ⟨var', hvar', hat, hother⟩ := World.modify_getElem? hexec hi
    refine ⟨var', hvar', ?_, False.elim⟩
    simp only [userAfter, concernedAfter, hi, bind_some]
    split_ifs with hji
    · exact h.set (hat hji)
    · rwa [hother hji]
  | lockFromServer j str =>
    obtain ⟨var', hvar', hat, hother⟩ := World.modify_getElem? hexec hi
    refine ⟨var', hvar', ?_, False.elim⟩
    by_cases hji : j = i
    · exact h.lockFromServer (hat hji)
    · rwa [hother hji]
  | lockUnsupportedRendererCvar j str =>
    obtain ⟨var', hvar', hat, hother⟩ := World.modify_getElem? hexec hi
    refine ⟨var', hvar', ?_, False.elim⟩
    by_cases hji : j = i
    · exact h.lockUnsupportedRendererCvar (hat hji)
    · rwa [hother hji]
  | applyLatchFlag j value newflag ignoreflags =>
    obtain ⟨var', hvar', hat, hother⟩ := World.modify_getElem? hexec hi
    refine ⟨var', hvar', ?_, False.elim⟩
    simp only [userAfter, concernedAfter]
    split_ifs with hji
    · obtain ⟨⟨_, okay⟩, happly, rfl⟩ := map_eq_some_iff.1 (hat hji)
      refine (h.mono newflag).applyLatchFlag ?_ happly
      rw [BitVec.and_comm]
      exact or_and_ne_zero_right (by rw [BitVec.and_self]; exact hop hji)
    · rwa [hother hji]
  | forceCheatVars semicheats absolutecheats rs =>
    simp only [Cvars.exec, Cvars.forceCheatVars, Option.bind_eq_bind, Option.bind_eq_some_iff] at hexec
    obtain ⟨vars, hvars, hrules⟩ := hexec
    obtain ⟨forced, hforced, hforce⟩ := mapM_getElem? hvars hi
    obtain ⟨mid, var', hvar', hruled, hmid⟩ := validationApplyRuleset_getElem? hrules hforced
    have hkept := h.forceCheatVar hforce
    have hkeptmid : Kept mid user concerned := by
      rcases hmid with rfl | ⟨hcur, happly⟩
      · exact hkept
      · refine hkept.applyLatch (fun hrule hlatched => ?_) happly
        exact (writable_forceCheatVar hforce (hop hcur var hi) hrule hlatched).imp_right
          (and_ne_zero_of_subset (by decide))
    refine ⟨var', hvar', hruled.kept _ _ hkeptmid, fun hlift => ?_⟩
    cases semicheats <;> cases absolutecheats <;> try exact hlift.elim
    obtain ⟨old, new, hold, hnew, hflag, hheld, hfree⟩ := hlift
    obtain rfl := some.inj (hold.symm.trans hi)
    obtain rfl := some.inj (hnew.symm.trans hvar')
    refine h.freed hforce hruled (hmid.imp_right fun ⟨hcur, happly⟩ => ⟨?_, happly⟩) hflag hheld hfree
    exact writable_forceCheatVar hforce (hop hcur old hi)
  | applyLatches latchflag clearflag =>
    simp only [Cvars.exec, Option.bind_eq_bind, Option.bind_eq_some_iff, Option.some.injEq] at hexec
    obtain ⟨vars, hvars, rfl⟩ := hexec
    obtain ⟨var', hvar', happly⟩ := mapM_getElem? hvars hi
    refine ⟨var', hvar', h.applyLatch (fun hf hl => .inl (hop var hi hf hl)) happly, ?_⟩
    rintro ⟨old, hold, hflag, hfree⟩
    obtain rfl := some.inj (hold.symm.trans hi)
    exact h.released hflag (hop old hi) hfree happly

/-- The run lemma. -/
theorem Run.kept {i : ℕ} {w₀ w : World} (h : Run i (Restorable i) w₀ w user concerned) :
    ∃ var, w.vars[i]? = some var ∧ Kept var user concerned := by
  induction h with
  | start hvar hlatched => exact ⟨_, hvar, rfl, hlatched, fun _ => id⟩
  | step hrun hop hexec ih =>
    obtain ⟨var, hvar, hkept⟩ := ih
    obtain ⟨var', hvar', hkept', -⟩ := hkept.exec hvar hop hexec
    exact ⟨var', hvar', hkept'⟩

/-- **The value of the user survives every override**: in a run whose calls restore no read-only cvar,
it is the value of the last call of `Cvar_Set` that was not refused, and it is set again, with nothing
latched, by the call that lifts the last restriction. -/
theorem userValue_kept {i : ℕ} {w₀ w : World} (h : Run i (Restorable i) w₀ w user concerned) :
    (∃ var, w.vars[i]? = some var ∧ var.userValue = user) ∧
      ∀ env op w', Restorable i w op → exec env w op = some w' →
        ∃ var', w'.vars[i]? = some var' ∧ var'.userValue = userAfter i w user op ∧
          (Lifts i concerned env w w' op → Put user var') := by
  obtain ⟨var, hvar, hkept⟩ := h.kept
  refine ⟨⟨var, hvar, hkept.value⟩, fun env op w' hop hexec => ?_⟩
  obtain ⟨var', hvar', hkept', hput⟩ := hkept.exec hvar hop hexec
  exact ⟨var', hvar', hkept'.value, hput⟩

/-- No client and no server. -/
def idle : Env := ⟨false, false, false, false, false, false⟩

/-- A cvar that gamecode may set, for the tests below. -/
def sample (flags : BitVec 32) (string : String) (latched : Option String) : World :=
  ⟨[⟨"r_temporalscenecache", some "r_scenecache", string, latched, flags, none, some ""⟩], none⟩

theorem sample_locked {C : World → Op → Prop} (hC : ∀ w, C w (.lockFromServer 0 (some "1"))) {flags locked : BitVec 32}
    (hlock : exec idle (sample flags "" none) (.lockFromServer 0 (some "1")) = some (sample locked "1" (some ""))) :
    Run 0 C (sample flags "" none) (sample locked "1" (some "")) "" latchFlags := by
  have hvar : (sample flags "" none).vars[0]? =
      some ⟨"r_temporalscenecache", some "r_scenecache", "", none, flags, none, some ""⟩ := rfl
  exact .step (.start hvar fun h => absurd rfl h) (hC _) hlock

theorem userValue_kept_locked :
    exec idle (sample serverOverride "1" (some "")) (.applyLatches serverOverride true) =
        some (sample 0#32 "" none) ∧
      Put "" ⟨"r_temporalscenecache", some "r_scenecache", "", none, 0#32, none, some ""⟩ := by
  have hrun : Run 0 (Restorable 0) (sample 0#32 "" none) (sample serverOverride "1" (some ""))
      "" latchFlags := sample_locked (fun _ => trivial) rfl
  have hexec : exec idle (sample serverOverride "1" (some "")) (.applyLatches serverOverride true) =
      some (sample 0#32 "" none) := rfl
  have hop : Restorable 0 (sample serverOverride "1" (some "")) (.applyLatches serverOverride true) := by
    intro var hvar _ _
    obtain rfl := Option.some.inj hvar
    decide
  obtain ⟨var', hvar', -, hput⟩ := (userValue_kept hrun).2 idle _ _ hop hexec
  obtain rfl := Option.some.inj hvar'
  exact ⟨hexec, hput ⟨_, rfl, .inr (by decide), by decide⟩⟩

/-- A read-only cvar that gamecode locks keeps the value of the gamecode. -/
theorem userValue_lost_of_noset :
    Run 0 (fun _ _ => True) (sample noset "" none) (sample (noset ||| serverOverride) "1" (some ""))
        "" latchFlags ∧
      Lifts 0 latchFlags idle (sample (noset ||| serverOverride) "1" (some ""))
        (sample noset "1" (some "")) (.applyLatches serverOverride true) ∧
      exec idle (sample (noset ||| serverOverride) "1" (some "")) (.applyLatches serverOverride true) =
        some (sample noset "1" (some "")) ∧
      ∀ var', (sample noset "1" (some "")).vars[0]? = some var' → ¬ Put "" var' := by
  refine ⟨sample_locked (fun _ => trivial) rfl, ⟨_, rfl, .inr (by decide), by decide⟩, rfl,
    fun var' hvar' => ?_⟩
  obtain rfl := Option.some.inj hvar'
  exact fun h => absurd h.2 (by decide)

end Cvars

end FteQuake
