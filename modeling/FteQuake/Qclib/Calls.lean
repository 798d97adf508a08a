import Mathlib.Data.Set.Basic
import Mathlib.Algebra.Order.Ring.Int
import Mathlib.Tactic.Set

/-!
# Calls of the QuakeC machine

`PR_EnterFunction` and `PR_LeaveFunction` keep one stack of frames and one stack of words. The
globals that a function has for locals are saved on the words when it is entered and put back when
it is left; what it pushes with `OP_PUSH` lies above them, and the count of it is kept in `spushed`
until the function calls another, whose frame then remembers it.

`exec` is one step of a run: an instruction of QuakeC code that takes part in this, or a builtin
that starts `PR_ExecuteProgram` or returns. The C stack of the engine is explicit (`CFrame`), so
that `PR_ExecuteProgram` may be entered from a builtin to any depth. `Abort` is taken to return; a
host whose `Abort` does not return never sees the states behind it. Accesses out of bounds have no
result.
-/

namespace FteQuake

theorem guard_bind_eq_some_iff {α : Type} {p : Prop} [Decidable p] {x : Unit → Option α} {a : α} :
    (guard p : Option Unit).bind x = some a ↔ p ∧ x () = some a := by
  by_cases hp : p <;> simp [guard, hp]

/-- An index into the functions of one progs. -/
structure FuncRef where
  progs : ℕ
  index : ℕ
  deriving DecidableEq

/-- `mfunction_t`. `parmSize` has an entry for each of `numparms`. -/
structure QcFunction where
  firstStatement : ℤ
  parmStart : ℤ
  locals : ℤ
  parmSize : List ℕ

/-- What does not change while the machine runs: the progs, their functions and the shared
globals, and where the stack of words is. -/
structure Progs where
  loaded : ℕ → Bool
  numglobals : ℕ → ℕ
  functions : FuncRef → Option QcFunction
  shares : List (ℕ × ℕ)
  localstackOfs : BitVec 32

/-- `prstack_t`. -/
structure PrStack where
  s : ℤ
  f : Option FuncRef
  progsnum : ℕ
  pushed : ℤ

/-- The registers and the stacks of the machine. The last frame comes first, and `pr_depth` is the
number of frames. -/
structure PrInst where
  globals : ℕ → ℤ → BitVec 32
  localstack : ℤ → BitVec 32
  localstackUsed : ℤ
  spushed : ℤ
  prStack : List PrStack
  exitdepth : ℕ
  prXfunction : Option FuncRef
  prXstatement : ℤ
  prTypecurrent : ℕ
  callprogs : ℕ

/-- `MAX_STACK_DEPTH`. -/
def maxStackDepth : ℕ := 1024

/-- `LOCALSTACK_SIZE`. -/
def localstackSize : ℤ := 65536 * 16

/-- `OFS_PARM0`. -/
def ofsParm0 : ℤ := 4

/-- Word `o` is one of the locals of a function. -/
def QcFunction.Owns (f : QcFunction) (o : ℤ) : Prop :=
  f.parmStart ≤ o ∧ o < f.parmStart + f.locals

instance (f : QcFunction) (o : ℤ) : Decidable (f.Owns o) := inferInstanceAs (Decidable (_ ∧ _))

namespace Progs

variable (ps : Progs)

/-- Globals that move when the progs are switched: `OFS_RETURN`, the parameters and the shared
ones. -/
def Moved (o : ℤ) : Prop :=
  1 ≤ o ∧ o < 28 ∨ ∃ share ∈ ps.shares, (share.1 : ℤ) ≤ o ∧ o < share.1 + share.2

instance (o : ℤ) : Decidable (ps.Moved o) := inferInstanceAs (Decidable (_ ∨ _))

/-- `PR_SwitchProgsParms`. Progs that are not loaded are refused. -/
def switchProgsParms (vm : PrInst) (newpr : ℕ) : PrInst :=
  if newpr = vm.prTypecurrent ∨ ¬ps.loaded newpr then vm
  else if ¬ps.loaded vm.prTypecurrent then { vm with prTypecurrent := newpr }
  else
    { vm with
      globals := fun p o =>
        if p = newpr ∧ ps.Moved o then vm.globals vm.prTypecurrent o else vm.globals p o
      prTypecurrent := newpr }

/-- The words that a function saves are on the stack, and its locals are globals. -/
def LocalsInBounds (vm : PrInst) (f : QcFunction) (used : ℤ) : Prop :=
  f.locals ≤ 0 ∨ 0 ≤ used ∧ used + f.locals ≤ localstackSize ∧ 0 ≤ f.parmStart ∧
    f.parmStart + f.locals ≤ ps.numglobals vm.prTypecurrent

instance (vm : PrInst) (f : QcFunction) (used : ℤ) : Decidable (ps.LocalsInBounds vm f used) :=
  inferInstanceAs (Decidable (_ ∨ _))

/-- The parameters of a function are globals, and there are at most `MAX_PARMS`. -/
def ParmsInBounds (vm : PrInst) (f : QcFunction) : Prop :=
  f.parmSize.sum = 0 ∨ f.parmSize.length ≤ 8 ∧ 0 ≤ f.parmStart ∧
    f.parmStart + f.parmSize.sum ≤ ps.numglobals vm.prTypecurrent

instance (vm : PrInst) (f : QcFunction) : Decidable (ps.ParmsInBounds vm f) :=
  inferInstanceAs (Decidable (_ ∨ _))

/-- The locals of `f` get the words from `used` on. -/
def restoreLocals (vm : PrInst) (f : QcFunction) (used : ℤ) : PrInst :=
  { vm with
    globals := fun p o =>
      if p = vm.prTypecurrent ∧ f.Owns o then vm.localstack (used + (o - f.parmStart))
      else vm.globals p o }

/-- `PR_LeaveFunction`. -/
def leaveFunction (vm : PrInst) : Option (PrInst × ℤ) :=
  match vm.prStack with
  | [] => none
  | st :: rest => do
    let f ← vm.prXfunction.bind ps.functions
    let used := vm.localstackUsed - f.locals
    guard (ps.LocalsInBounds vm f used)
    let vm := ps.switchProgsParms (restoreLocals vm f used) st.progsnum
    some ({ vm with
      prStack := rest, spushed := st.pushed, prXfunction := st.f,
      localstackUsed := used - st.pushed }, st.s)

/-- `PR_LeaveFunction`, a number of times. -/
def leaveFunctions (n : ℕ) (vm : PrInst) : Option PrInst :=
  match n with
  | 0 => some vm
  | n + 1 => do
    let (vm, _) ← ps.leaveFunction vm
    leaveFunctions n vm

/-- Leaves every function above `exitdepth`. -/
def unwind (vm : PrInst) : Option PrInst :=
  ps.leaveFunctions (vm.prStack.length - vm.exitdepth) vm

/-- The parameters of a call, word by word: where each goes and where it comes from. -/
def parmWords (parmStart : ℤ) : ℤ → List ℕ → List (ℤ × ℤ)
  | _, [] => []
  | parm, size :: sizes =>
    (List.range size).map (fun j : ℕ => (parmStart + j, parm + j)) ++
      parmWords (parmStart + size) (parm + 3) sizes

/-- Copies parameters to where the function has them. -/
def copyParms (globals : ℤ → BitVec 32) (words : List (ℤ × ℤ)) : ℤ → BitVec 32 :=
  words.foldl (fun globals w => Function.update globals w.1 (globals w.2)) globals

/-- `PR_EnterFunction`. The statement to go on at comes with the machine. -/
def enterFunction (vm : PrInst) (callee : FuncRef) (f : QcFunction) (progsnum : ℕ) :
    Option (PrInst × ℤ) :=
  if vm.prStack.length = maxStackDepth then do
    let vm ← ps.unwind vm
    some ({ vm with prXstatement := -1 }, -1)
  else do
    let st : PrStack := ⟨vm.prXstatement, vm.prXfunction, progsnum, vm.spushed⟩
    -- On an overflow the frame is taken off again, and `Abort` is called.
    let vm := if localstackSize < vm.localstackUsed + vm.spushed + f.locals then vm
      else { vm with prStack := st :: vm.prStack, localstackUsed := vm.localstackUsed + vm.spushed }
    guard (ps.LocalsInBounds vm f vm.localstackUsed ∧ ps.ParmsInBounds vm f)
    let globals := vm.globals vm.prTypecurrent
    let saved := fun i =>
      if vm.localstackUsed ≤ i ∧ i < vm.localstackUsed + f.locals then
        globals (f.parmStart + (i - vm.localstackUsed))
      else vm.localstack i
    let globals := copyParms globals (parmWords f.parmStart ofsParm0 f.parmSize)
    some ({ vm with
      localstack := saved
      localstackUsed := vm.localstackUsed + f.locals
      globals := Function.update vm.globals vm.prTypecurrent globals
      prXfunction := some callee
      spushed := 0 }, f.firstStatement - 1)

end Progs

/-! ## Steps -/

/-- A C function of the engine that has not returned. -/
inductive CFrame
  /-- `PR_ExecuteProgram`, with QuakeC code running. -/
  | executeProgram (initialProgs oldexitdepth : ℕ)
  /-- A builtin that `OP_CALL` called. -/
  | builtin
  /-- A builtin that `PR_ExecuteProgram` called. -/
  | direct (initialProgs : ℕ)

/-- The machine and the C stack of the engine. -/
structure QcState where
  vm : PrInst
  cstack : List CFrame

/-- The C stack of a machine that runs QuakeC code. -/
def RunsCode : List CFrame → Prop
  | .executeProgram _ _ :: _ => True
  | _ => False

instance : DecidablePred RunsCode
  | [] => isFalse id
  | .executeProgram _ _ :: _ => isTrue trivial
  | .builtin :: _ => isFalse id
  | .direct _ :: _ => isFalse id

/-- One step of a run. -/
inductive QcOp
  /-- A global is written. -/
  | assign (progs : ℕ) (o : ℤ) (value : BitVec 32)
  /-- A word of the stack is written through a pointer. -/
  | store (i : ℤ) (value : BitVec 32)
  /-- `OP_PUSH`. -/
  | push (o : ℤ) (words : BitVec 32)
  /-- `OP_CALL*` of a function. -/
  | call (st : ℤ) (callee : FuncRef)
  /-- `OP_CALL*` of a builtin. -/
  | callBuiltin (st : ℤ) (callee : FuncRef)
  /-- `OP_RETURN`. -/
  | ret (a : ℤ)
  /-- `RUNAWAYCHECK` with nothing left. -/
  | runaway (st : ℤ)
  /-- `PR_ExecuteProgram` of a function. -/
  | execute (callee : FuncRef)
  /-- `PR_ExecuteProgram` of a builtin. -/
  | executeBuiltin (callee : FuncRef)
  /-- A builtin returns. -/
  | endBuiltin

namespace Progs

variable (ps : Progs)

/-- The end of `PR_ExecuteProgram`. -/
def finish (vm : PrInst) : List CFrame → Option QcState
  | .executeProgram initialProgs oldexitdepth :: cstack =>
    some ⟨{ ps.switchProgsParms vm initialProgs with exitdepth := oldexitdepth }, cstack⟩
  | _ => none

/-- `OP_PUSH`. -/
def execPush (vm : PrInst) (o : ℤ) (words : BitVec 32) : Option PrInst := do
  let p := ps.localstackOfs + BitVec.ofInt 32 (4 * (vm.localstackUsed + vm.spushed))
  let vm := { vm with
    globals := Function.update vm.globals vm.prTypecurrent
      (Function.update (vm.globals vm.prTypecurrent) o p) }
  let spushed := Int.bmod (vm.spushed + words.toNat) (2 ^ 32)
  guard (spushed + vm.localstackUsed < 2 ^ 31)
  some { vm with spushed := if localstackSize ≤ spushed + vm.localstackUsed then 0 else spushed }

/-- `OP_CALL*` of a function. -/
def execCall (vm : PrInst) (cstack : List CFrame) (st : ℤ) (callee : FuncRef) :
    Option QcState := do
  let callprogs := vm.prTypecurrent
  guard (ps.loaded callee.progs)
  let f ← ps.functions callee
  guard (0 < f.firstStatement)
  let vm := ps.switchProgsParms { vm with prXstatement := st, callprogs := callprogs } callee.progs
  let (vm, s) ← ps.enterFunction vm callee f callprogs
  if s = -1 then ps.finish vm cstack else some ⟨vm, cstack⟩

/-- `OP_CALL*` of a builtin, which sees the globals of the first progs. -/
def execCallBuiltin (vm : PrInst) (cstack : List CFrame) (st : ℤ) (callee : FuncRef) :
    Option QcState := do
  guard (ps.loaded callee.progs)
  let f ← ps.functions callee
  guard (f.firstStatement ≤ 0)
  let vm := { vm with prXstatement := st, callprogs := vm.prTypecurrent }
  some ⟨ps.switchProgsParms (ps.switchProgsParms vm callee.progs) 0, .builtin :: cstack⟩

/-- `OP_RETURN`. -/
def execRet (vm : PrInst) (cstack : List CFrame) (a : ℤ) : Option QcState := do
  let globals := vm.globals vm.prTypecurrent
  let globals := Function.update globals 1 (globals a)
  let globals := Function.update globals 2 (globals (a + 1))
  let globals := Function.update globals 3 (globals (a + 2))
  let vm := { vm with globals := Function.update vm.globals vm.prTypecurrent globals }
  let (vm, s) ← ps.leaveFunction vm
  if vm.prStack.length = vm.exitdepth then ps.finish { vm with prXstatement := s } cstack
  else some ⟨vm, cstack⟩

/-- `RUNAWAYCHECK`. -/
def execRunaway (vm : PrInst) (cstack : List CFrame) (st : ℤ) : Option QcState := do
  let vm ← ps.unwind { vm with prXstatement := st }
  ps.finish { vm with spushed := 0 } cstack

/-- `PR_ExecuteProgram` of a function. -/
def execExecute (vm : PrInst) (cstack : List CFrame) (callee : FuncRef) : Option QcState := do
  let initialProgs := vm.prTypecurrent
  guard (callee.progs = initialProgs ∨ ps.loaded callee.progs)
  let f ← ps.functions callee
  guard (0 ≤ f.firstStatement)
  let vm := ps.switchProgsParms vm callee.progs
  let oldexitdepth := vm.exitdepth
  let (vm, _) ← ps.enterFunction { vm with exitdepth := vm.prStack.length } callee f initialProgs
  some ⟨vm, .executeProgram initialProgs oldexitdepth :: cstack⟩

/-- `PR_ExecuteProgram` of a builtin. -/
def execExecuteBuiltin (vm : PrInst) (cstack : List CFrame) (callee : FuncRef) :
    Option QcState := do
  guard (callee.progs = vm.prTypecurrent ∨ ps.loaded callee.progs)
  let f ← ps.functions callee
  guard (f.firstStatement < 0)
  some ⟨ps.switchProgsParms vm callee.progs, .direct vm.prTypecurrent :: cstack⟩

/-- A builtin returns. Code that was told to stop does. -/
def execEndBuiltin (vm : PrInst) : List CFrame → Option QcState
  | .builtin :: cstack =>
    let vm := ps.switchProgsParms vm vm.callprogs
    if vm.prXstatement = -1 then ps.finish vm cstack else some ⟨vm, cstack⟩
  | .direct initialProgs :: cstack => some ⟨ps.switchProgsParms vm initialProgs, cstack⟩
  | _ => none

/-- One step. -/
def exec (s : QcState) : QcOp → Option QcState
  | .assign progs o value =>
    let globals := Function.update (s.vm.globals progs) o value
    some { s with vm := { s.vm with globals := Function.update s.vm.globals progs globals } }
  | .store i value =>
    some { s with vm := { s.vm with localstack := Function.update s.vm.localstack i value } }
  | .push o words =>
    if RunsCode s.cstack then (ps.execPush s.vm o words).map fun vm => { s with vm := vm }
    else none
  | .call st callee =>
    if RunsCode s.cstack then ps.execCall s.vm s.cstack st callee else none
  | .callBuiltin st callee =>
    if RunsCode s.cstack then ps.execCallBuiltin s.vm s.cstack st callee else none
  | .ret a => if RunsCode s.cstack then ps.execRet s.vm s.cstack a else none
  | .runaway st => if RunsCode s.cstack then ps.execRunaway s.vm s.cstack st else none
  | .execute callee =>
    if RunsCode s.cstack then none else ps.execExecute s.vm s.cstack callee
  | .executeBuiltin callee =>
    if RunsCode s.cstack then none else ps.execExecuteBuiltin s.vm s.cstack callee
  | .endBuiltin => ps.execEndBuiltin s.vm s.cstack

end Progs

end FteQuake
