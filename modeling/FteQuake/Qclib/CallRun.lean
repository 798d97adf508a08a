import FteQuake.Qclib.Calls

/-!
# What a call leaves behind

A run of the machine is watched with two records that the machine does not have: the calls that have
not returned, each with the machine as it was before (`Activation`), and the memory that `OP_PUSH`
handed out to each function. `Consistent` says that the frames and the saved words are those of the
recorded calls. In a run whose steps meet `Progs.Meets`, a call that returns leaves the machine as it
found it (`Restored`), and nothing but the program writes to pushed memory.
-/

namespace FteQuake

open List Option

/-! ## Runs -/

/-- Words of the stack that `OP_PUSH` handed out. -/
structure Region where
  start : ℤ
  words : ℤ

def Region.Has (r : Region) (i : ℤ) : Prop := r.start ≤ i ∧ i < r.start + r.words

/-- A call that has not returned, with the machine before it and the memory that was handed out to
the caller. A builtin has no `callee`. -/
structure Activation where
  caller : PrInst
  callee : Option FuncRef
  regions : List Region

/-- Memory that was handed out to the function that runs or to one that waits. -/
def Handed (regions : List Region) (calls : List Activation) (i : ℤ) : Prop :=
  (∃ r ∈ regions, r.Has i) ∨ ∃ a ∈ calls, ∃ r ∈ a.regions, r.Has i

/-- A state with its records. -/
structure Tracked extends QcState where
  regions : List Region
  calls : List Activation

namespace Tracked

variable (t : Tracked)

/-- The number of calls above the innermost `PR_ExecuteProgram`. -/
def above : ℕ := t.vm.prStack.length - t.vm.exitdepth

/-- A call starts. -/
def into (s : QcState) (callee : Option FuncRef) : Tracked :=
  ⟨s, if callee.isSome then [] else t.regions, ⟨t.vm, callee, t.regions⟩ :: t.calls⟩

/-- The last `n` calls end. -/
def back (s : QcState) (n : ℕ) : Tracked :=
  ⟨s, (t.calls[n - 1]?).elim [] Activation.regions, t.calls.drop n⟩

/-- The records after a step. -/
def next (s : QcState) : QcOp → Tracked
  | .push _ words => ⟨s, ⟨t.vm.localstackUsed + t.vm.spushed, words.toNat⟩ :: t.regions, t.calls⟩
  | .call _ callee =>
    if t.vm.prStack.length = maxStackDepth then t.back s t.above else t.into s callee
  | .execute callee => t.into s callee
  | .callBuiltin _ _ | .executeBuiltin _ => t.into s none
  | .ret _ | .endBuiltin => t.back s 1
  | .runaway _ => t.back s t.above
  | .assign _ _ _ | .store _ _ => ⟨s, t.regions, t.calls⟩

/-- The call that a step ends. -/
def ended : QcOp → Option Activation
  | .ret _ | .endBuiltin => t.calls.head?
  | .runaway _ => t.calls[t.above - 1]?
  | .call _ _ => if t.vm.prStack.length = maxStackDepth then t.calls[t.above - 1]? else none
  | _ => none

end Tracked

/-- A program writes to the stack through the pointers that it was given. -/
def QcOp.Legal (t : Tracked) : QcOp → Prop
  | .store i _ => Handed t.regions t.calls i
  | _ => True

/-- Runs whose steps meet `C`. -/
inductive QcRun (ps : Progs) (C : Tracked → QcOp → Prop) (vm₀ : PrInst) : Tracked → Prop
  | start : QcRun ps C vm₀ ⟨⟨vm₀, []⟩, [], []⟩
  | step {t : Tracked} {s : QcState} (op : QcOp) (hr : QcRun ps C vm₀ t) (hlegal : op.Legal t)
      (hop : C t op) (hexec : ps.exec t.toQcState op = some s) : QcRun ps C vm₀ (t.next s op)

/-! ## What is kept -/

/-- The stack of words has room for what is on it. -/
structure Bounded (vm : PrInst) : Prop where
  used_nonneg : 0 ≤ vm.localstackUsed
  spushed_nonneg : 0 ≤ vm.spushed
  le_size : vm.localstackUsed + vm.spushed ≤ localstackSize

/-- The same frames, the same counts and the same function. -/
structure SameFrame (vm vm' : PrInst) : Prop where
  prStack_eq : vm'.prStack = vm.prStack
  used_eq : vm'.localstackUsed = vm.localstackUsed
  spushed_eq : vm'.spushed = vm.spushed
  prXfunction_eq : vm'.prXfunction = vm.prXfunction

/-- The globals that a function has for locals have the values that they had. -/
def LocalsRestored (ps : Progs) (callee : FuncRef) (vm vm' : PrInst) : Prop :=
  ∀ f, ps.functions callee = some f → ∀ o, f.Owns o →
    vm'.globals callee.progs o = vm.globals callee.progs o

/-- The machine after a call, beside the machine before it. -/
structure Restored (ps : Progs) (a : Activation) (vm : PrInst) : Prop extends
    SameFrame a.caller vm where
  exitdepth_eq : vm.exitdepth = a.caller.exitdepth
  prTypecurrent_eq : vm.prTypecurrent = a.caller.prTypecurrent
  locals_eq : ∀ callee ∈ a.callee, LocalsRestored ps callee a.caller vm

/-- What a step keeps. -/
structure Kept (ps : Progs) (t : Tracked) (op : QcOp) (t' : Tracked) : Prop where
  bounded : Bounded t'.vm
  handed_eq : (∀ i value, op ≠ .store i value) → ∀ i, Handed t.regions t.calls i →
    t'.vm.localstack i = t.vm.localstack i
  fresh : ∀ o words, op = .push o words → ∀ r, t'.regions = r :: t.regions → ∀ i, r.Has i →
    ¬Handed t.regions t.calls i
  restored : ∀ a ∈ t.ended op, Restored ps a t'.vm

/-- A run in which the next step keeps what it has to, if it meets `C`. -/
structure Discipline (ps : Progs) (C : Tracked → QcOp → Prop) (t : Tracked) : Prop where
  bounded : Bounded t.vm
  kept : ∀ op s, op.Legal t → C t op → ps.exec t.toQcState op = some s →
    Kept ps t op (t.next s op)

/-- A function can be entered: there is room for a frame and for its locals, and they are not among
the globals that move when the progs are switched. -/
structure Enters (ps : Progs) (vm : PrInst) (callee : FuncRef) : Prop where
  depth_lt : vm.prStack.length < maxStackDepth
  locals_nonneg : ∀ f, ps.functions callee = some f → 0 ≤ f.locals
  locals_le : ∀ f, ps.functions callee = some f →
    vm.localstackUsed + vm.spushed + f.locals ≤ localstackSize
  not_moved : callee.progs ≠ vm.prTypecurrent → ∀ f, ps.functions callee = some f →
    ∀ o, f.Owns o → ¬ps.Moved o

/-- The condition on a step. -/
def Progs.Meets (ps : Progs) (t : Tracked) : QcOp → Prop
  | .push _ words => t.vm.localstackUsed + t.vm.spushed + words.toNat < localstackSize
  | .call _ callee => Enters ps t.vm callee ∨
      t.vm.prStack.length = maxStackDepth ∧ callee.progs = t.vm.prTypecurrent
  | .execute callee => Enters ps t.vm callee
  | .runaway _ => ∀ st, t.vm.prStack[t.above - 1]? = some st → st.pushed = 0
  | .endBuiltin => ∀ cstack, t.cstack = .builtin :: cstack → t.vm.prXstatement ≠ -1 ∧
      ∀ f ∈ t.vm.prXfunction, f.progs = t.vm.callprogs
  | _ => True

/-! ## Switching progs -/

section Switching

variable {ps : Progs} {vm : PrInst} {newpr p : ℕ} {o : ℤ}

@[simp]
theorem switchProgsParms_localstack :
    (ps.switchProgsParms vm newpr).localstack = vm.localstack := by
  unfold Progs.switchProgsParms
  split_ifs <;> rfl

@[simp]
theorem switchProgsParms_exitdepth : (ps.switchProgsParms vm newpr).exitdepth = vm.exitdepth := by
  unfold Progs.switchProgsParms
  split_ifs <;> rfl

@[simp]
theorem switchProgsParms_prXstatement :
    (ps.switchProgsParms vm newpr).prXstatement = vm.prXstatement := by
  unfold Progs.switchProgsParms
  split_ifs <;> rfl

theorem switchProgsParms_sameFrame (ps : Progs) (vm : PrInst) (newpr : ℕ) :
    SameFrame vm (ps.switchProgsParms vm newpr) := by
  unfold Progs.switchProgsParms
  split_ifs <;> exact ⟨rfl, rfl, rfl, rfl⟩

theorem switchProgsParms_prTypecurrent (hloaded : ps.loaded newpr) :
    (ps.switchProgsParms vm newpr).prTypecurrent = newpr := by
  unfold Progs.switchProgsParms
  split_ifs with h
  · rcases h with h | h
    · exact h.symm
    · exact absurd hloaded h
  · rfl
  · rfl

/-- Progs that are not switched to stay as they are. -/
theorem switchProgsParms_loaded (hloaded : ps.loaded vm.prTypecurrent) :
    ps.loaded (ps.switchProgsParms vm newpr).prTypecurrent := by
  by_cases hnew : ps.loaded newpr
  · rwa [switchProgsParms_prTypecurrent hnew]
  · rwa [Progs.switchProgsParms, if_pos (.inr hnew)]

@[simp]
theorem switchProgsParms_self : ps.switchProgsParms vm vm.prTypecurrent = vm := by
  simp [Progs.switchProgsParms]

theorem switchProgsParms_globals_of_ne (hp : p ≠ newpr) :
    (ps.switchProgsParms vm newpr).globals p o = vm.globals p o := by
  unfold Progs.switchProgsParms
  split_ifs <;> simp [hp]

theorem switchProgsParms_globals_of_not_moved (ho : ¬ps.Moved o) :
    (ps.switchProgsParms vm newpr).globals p o = vm.globals p o := by
  unfold Progs.switchProgsParms
  split_ifs <;> simp [ho]

end Switching

/-! ## Frames and records -/

section Consistency

variable {ps : Progs} {ls : ℤ → BitVec 32} {vm₀ vm vm' : PrInst} {callee : FuncRef}
  {cs cs' : List CFrame} {rs : List Region} {calls : List Activation}

/-- The machine `vm` runs the function `callee`, which was called by `vm₀`. -/
structure Entered (ps : Progs) (ls : ℤ → BitVec 32) (vm₀ : PrInst) (callee : FuncRef)
    (f : QcFunction) (vm : PrInst) : Prop where
  functions_eq : ps.functions callee = some f
  loaded : ps.loaded callee.progs
  locals_nonneg : 0 ≤ f.locals
  prStack_eq : ∃ s, vm.prStack =
    ⟨s, vm₀.prXfunction, vm₀.prTypecurrent, vm₀.spushed⟩ :: vm₀.prStack
  used_eq : vm.localstackUsed = vm₀.localstackUsed + vm₀.spushed + f.locals
  prXfunction_eq : vm.prXfunction = some callee
  prTypecurrent_eq : vm.prTypecurrent = callee.progs
  spushed_nonneg : 0 ≤ vm.spushed
  le_size : vm.localstackUsed + vm.spushed ≤ localstackSize
  saved : ∀ o, f.Owns o →
    ls (vm₀.localstackUsed + vm₀.spushed + (o - f.parmStart)) = vm₀.globals callee.progs o

/-- The frames and the saved words of a machine are those of the calls that have not returned. -/
inductive Consistent (ps : Progs) (ls : ℤ → BitVec 32) :
    PrInst → List CFrame → List Region → List Activation → Prop
  | start {vm : PrInst} (hstack : vm.prStack = []) (hbound : Bounded vm)
      (hloaded : ps.loaded vm.prTypecurrent) : Consistent ps ls vm [] [] []
  | enter {vm₀ vm : PrInst} {cs cs' : List CFrame} {rs₀ rs : List Region}
      {calls : List Activation} {callee : FuncRef} {f : QcFunction}
      (h₀ : Consistent ps ls vm₀ cs rs₀ calls) (hent : Entered ps ls vm₀ callee f vm)
      (hrs : ∀ r ∈ rs, vm.localstackUsed ≤ r.start ∧
        r.start + r.words ≤ vm.localstackUsed + vm.spushed)
      (hcs : RunsCode cs ∧ cs' = cs ∧ vm.exitdepth = vm₀.exitdepth ∨
        ¬RunsCode cs ∧ cs' = .executeProgram vm₀.prTypecurrent vm₀.exitdepth :: cs ∧
          vm.exitdepth = vm₀.prStack.length) :
      Consistent ps ls vm cs' rs (⟨vm₀, some callee, rs₀⟩ :: calls)
  | host {vm₀ vm : PrInst} {cs cs' : List CFrame} {rs : List Region} {calls : List Activation}
      (h₀ : Consistent ps ls vm₀ cs rs calls) (hsame : SameFrame vm₀ vm)
      (hexit : vm.exitdepth = vm₀.exitdepth) (hloaded : ps.loaded vm.prTypecurrent)
      (hcs : RunsCode cs ∧ cs' = .builtin :: cs ∨
        ¬RunsCode cs ∧ cs' = .direct vm₀.prTypecurrent :: cs) :
      Consistent ps ls vm cs' rs (⟨vm₀, none, rs⟩ :: calls)

variable {f : QcFunction} {i s : ℤ}

theorem handed_cons {a : Activation} :
    Handed rs (a :: calls) i ↔ (∃ r ∈ rs, r.Has i) ∨ Handed a.regions calls i := by
  simp [Handed]

theorem Entered.bounded (hent : Entered ps ls vm₀ callee f vm) (hbound : Bounded vm₀) : Bounded vm where
  used_nonneg := by
    have := hent.used_eq
    have := hent.locals_nonneg
    have := hbound.used_nonneg
    have := hbound.spushed_nonneg
    omega
  spushed_nonneg := hent.spushed_nonneg
  le_size := hent.le_size

theorem Consistent.bounded (h : Consistent ps ls vm cs rs calls) : Bounded vm := by
  induction h with
  | start hstack hbound hloaded => exact hbound
  | enter h₀ hent hrs hcs ih => exact hent.bounded ih
  | host h₀ hsame hexit hloaded hcs ih =>
    constructor
    · rw [hsame.used_eq]
      exact ih.used_nonneg
    · rw [hsame.spushed_eq]
      exact ih.spushed_nonneg
    · rw [hsame.used_eq, hsame.spushed_eq]
      exact ih.le_size

theorem Consistent.loaded (h : Consistent ps ls vm cs rs calls) :
    ps.loaded vm.prTypecurrent := by
  cases h with
  | start hstack hbound hloaded => exact hloaded
  | enter h₀ hent hrs hcs =>
    rw [hent.prTypecurrent_eq]
    exact hent.loaded
  | host h₀ hsame hexit hloaded hcs => exact hloaded

/-- Code runs above the frame at which its `PR_ExecuteProgram` ends. -/
theorem Consistent.exitdepth_lt (h : Consistent ps ls vm cs rs calls) (hcode : RunsCode cs) :
    vm.exitdepth < vm.prStack.length := by
  induction h with
  | start hstack hbound hloaded => exact hcode.elim
  | enter h₀ hent hrs hcs ih =>
    obtain ⟨s, hs⟩ := hent.prStack_eq
    rw [hs, length_cons]
    rcases hcs with ⟨hcode₀, -, hexit⟩ | ⟨-, -, hexit⟩
    · have := ih hcode₀
      omega
    · omega
  | host h₀ hsame hexit hloaded hcs ih =>
    rcases hcs with ⟨-, rfl⟩ | ⟨-, rfl⟩
    · exact hcode.elim
    · exact hcode.elim

theorem Entered.of_sameFrame (hent : Entered ps ls vm₀ callee f vm)
    (hsame : SameFrame vm vm') (htype : vm'.prTypecurrent = vm.prTypecurrent) :
    Entered ps ls vm₀ callee f vm' :=
  { hent with
    prStack_eq := by rw [hsame.prStack_eq]; exact hent.prStack_eq
    used_eq := by rw [hsame.used_eq]; exact hent.used_eq
    prXfunction_eq := by rw [hsame.prXfunction_eq]; exact hent.prXfunction_eq
    prTypecurrent_eq := by rw [htype]; exact hent.prTypecurrent_eq
    spushed_nonneg := by rw [hsame.spushed_eq]; exact hent.spushed_nonneg
    le_size := by rw [hsame.used_eq, hsame.spushed_eq]; exact hent.le_size }

/-- Running code is in a function that was called. -/
theorem Consistent.enter_of_runsCode (h : Consistent ps ls vm cs' rs calls)
    (hcode : RunsCode cs') : ∃ vm₀ cs rs₀ calls₀ callee f,
      calls = ⟨vm₀, some callee, rs₀⟩ :: calls₀ ∧ Consistent ps ls vm₀ cs rs₀ calls₀ ∧
      Entered ps ls vm₀ callee f vm ∧
      (RunsCode cs ∧ cs' = cs ∧ vm.exitdepth = vm₀.exitdepth ∨
        ¬RunsCode cs ∧ cs' = .executeProgram vm₀.prTypecurrent vm₀.exitdepth :: cs ∧
          vm.exitdepth = vm₀.prStack.length) := by
  cases h with
  | start hstack hbound hloaded => exact hcode.elim
  | enter h₀ hent hrs hcs => exact ⟨_, _, _, _, _, _, rfl, h₀, hent, hcs⟩
  | host h₀ hsame hexit hloaded hcs =>
    rcases hcs with ⟨-, rfl⟩ | ⟨-, rfl⟩
    · exact hcode.elim
    · exact hcode.elim

/-- Only a builtin returns without leaving a function. -/
theorem Consistent.host_of_builtin (h : Consistent ps ls vm (.builtin :: cs) rs calls) :
    ∃ vm₀ calls₀, calls = ⟨vm₀, none, rs⟩ :: calls₀ ∧ Consistent ps ls vm₀ cs rs calls₀ ∧
      SameFrame vm₀ vm ∧ vm.exitdepth = vm₀.exitdepth ∧ RunsCode cs := by
  cases h with
  | enter h₀ hent hrs hcs =>
    rcases hcs with ⟨hcode, rfl, -⟩ | ⟨-, hcs, -⟩
    · exact hcode.elim
    · cases hcs
  | host h₀ hsame hexit hloaded hcs =>
    rcases hcs with ⟨hcode, hcs⟩ | ⟨-, hcs⟩
    · cases hcs
      exact ⟨_, _, rfl, h₀, hsame, hexit, hcode⟩
    · cases hcs

theorem Consistent.host_of_direct {initialProgs : ℕ} (h : Consistent ps ls vm (.direct initialProgs :: cs) rs calls) :
    ∃ vm₀ calls₀, calls = ⟨vm₀, none, rs⟩ :: calls₀ ∧ Consistent ps ls vm₀ cs rs calls₀ ∧
      SameFrame vm₀ vm ∧ vm.exitdepth = vm₀.exitdepth ∧ initialProgs = vm₀.prTypecurrent := by
  cases h with
  | enter h₀ hent hrs hcs =>
    rcases hcs with ⟨hcode, rfl, -⟩ | ⟨-, hcs, -⟩
    · exact hcode.elim
    · cases hcs
  | host h₀ hsame hexit hloaded hcs =>
    rcases hcs with ⟨-, hcs⟩ | ⟨-, hcs⟩
    · cases hcs
    · cases hcs
      exact ⟨_, _, rfl, h₀, hsame, hexit, rfl⟩

/-- The machine may change in anything but its registers. -/
theorem Consistent.of_sameFrame (h : Consistent ps ls vm cs rs calls) (hsame : SameFrame vm vm')
    (hexit : vm'.exitdepth = vm.exitdepth) (htype : vm'.prTypecurrent = vm.prTypecurrent) :
    Consistent ps ls vm' cs rs calls := by
  have hbound := h.bounded
  cases h with
  | start hstack hb hloaded =>
    refine .start (hsame.prStack_eq.trans hstack) ?_ (by rwa [htype])
    constructor
    · rw [hsame.used_eq]
      exact hbound.used_nonneg
    · rw [hsame.spushed_eq]
      exact hbound.spushed_nonneg
    · rw [hsame.used_eq, hsame.spushed_eq]
      exact hbound.le_size
  | enter h₀ hent hrs hcs =>
    have hrs' := hrs
    rw [← hsame.used_eq, ← hsame.spushed_eq] at hrs'
    exact .enter h₀ (hent.of_sameFrame hsame htype) hrs' (by rwa [hexit])
  | host h₀ hsame₀ hexit₀ hloaded hcs =>
    refine .host h₀ ?_ (hexit.trans hexit₀) (by rwa [htype]) hcs
    exact ⟨hsame.prStack_eq.trans hsame₀.prStack_eq, hsame.used_eq.trans hsame₀.used_eq,
      hsame.spushed_eq.trans hsame₀.spushed_eq, hsame.prXfunction_eq.trans hsame₀.prXfunction_eq⟩

/-- Handed out memory is below what the running function may push next. -/
theorem Consistent.handed_bound (h : Consistent ps ls vm cs rs calls)
    (hi : Handed rs calls i) : 0 ≤ i ∧ i < vm.localstackUsed + vm.spushed := by
  induction h with
  | start hstack hbound hloaded => simp [Handed] at hi
  | enter h₀ hent hrs hcs ih =>
    have hb₀ := h₀.bounded
    have hb := hent.bounded hb₀
    have h₁ := hb₀.used_nonneg
    have h₂ := hb₀.spushed_nonneg
    have h₃ := hent.used_eq
    have h₄ := hent.locals_nonneg
    have h₅ := hent.spushed_nonneg
    rcases handed_cons.1 hi with ⟨r, hr, hri⟩ | hi₀
    · have := hrs r hr
      unfold Region.Has at hri
      omega
    · have hlow := ih hi₀
      omega
  | host h₀ hsame hexit hloaded hcs ih =>
    rw [hsame.used_eq, hsame.spushed_eq]
    exact ih ((handed_cons.1 hi).elim .inl id)

theorem Entered.congr {ls' : ℤ → BitVec 32} (hent : Entered ps ls vm₀ callee f vm)
    (hls : ∀ i, vm₀.localstackUsed + vm₀.spushed ≤ i → i < vm.localstackUsed → ls' i = ls i) :
    Entered ps ls' vm₀ callee f vm :=
  { hent with
    saved := by
      intro o ho
      have hused := hent.used_eq
      obtain ⟨ho₁, ho₂⟩ := ho
      rw [hls _ (by omega) (by omega)]
      exact hent.saved o ⟨ho₁, ho₂⟩ }

/-- Words behind the saved ones may change. -/
theorem Consistent.congr {ls' : ℤ → BitVec 32} (h : Consistent ps ls vm cs rs calls)
    (hls : ∀ i, i < vm.localstackUsed → ls' i = ls i) : Consistent ps ls' vm cs rs calls := by
  induction h with
  | start hstack hbound hloaded => exact .start hstack hbound hloaded
  | enter h₀ hent hrs hcs ih =>
    have h₂ := h₀.bounded.spushed_nonneg
    have h₃ := hent.used_eq
    have h₄ := hent.locals_nonneg
    exact .enter (ih fun i hi => hls i (by omega)) (hent.congr fun i _ hi => hls i hi) hrs hcs
  | host h₀ hsame hexit hloaded hcs ih =>
    rw [hsame.used_eq] at hls
    exact .host (ih hls) hsame hexit hloaded hcs

/-- Memory that was handed out may change. -/
theorem Consistent.store (h : Consistent ps ls vm cs rs calls) (hi : Handed rs calls i)
    (value : BitVec 32) : Consistent ps (Function.update ls i value) vm cs rs calls := by
  induction h with
  | start hstack hbound hloaded => exact .start hstack hbound hloaded
  | @enter vm₀ vm cs cs' rs₀ rs calls callee f h₀ hent hrs hcs ih =>
    rcases handed_cons.1 hi with ⟨r, hr, hri⟩ | hi₀
    · -- The running function's own memory is above all that is saved.
      have hlow := (hrs r hr).1.trans hri.1
      exact (Consistent.enter h₀ hent hrs hcs).congr fun j hj =>
        Function.update_of_ne (by omega) _ _
    · have hlow := h₀.handed_bound hi₀
      exact .enter (ih hi₀) (hent.congr fun j hj _ => Function.update_of_ne (by omega) _ _) hrs hcs
  | host h₀ hsame hexit hloaded hcs ih =>
    exact .host (ih ((handed_cons.1 hi).elim .inl id)) hsame hexit hloaded hcs

/-! ## Leaving -/

/-- The machine after the calls from `a` on were left, with the stack of words as it was. -/
structure Left (ps : Progs) (ls : ℤ → BitVec 32) (a : Activation) (vm : PrInst) : Prop extends
    SameFrame a.caller vm where
  prTypecurrent_eq : vm.prTypecurrent = a.caller.prTypecurrent
  localstack_eq : vm.localstack = ls
  locals_eq : ∀ callee ∈ a.callee, LocalsRestored ps callee a.caller vm

/-- Leaving a function that `vm₀` called. -/
theorem Entered.leaveFunction (hent : Entered ps vm.localstack vm₀ callee f vm) (hloaded : ps.loaded vm₀.prTypecurrent)
    (rs : List Region) (h : ps.leaveFunction vm = some (vm', s)) :
    Left ps vm.localstack ⟨vm₀, some callee, rs⟩ vm' ∧ vm'.exitdepth = vm.exitdepth := by
  obtain ⟨s₀, hs₀⟩ := hent.prStack_eq
  simp only [Progs.leaveFunction, hs₀, hent.prXfunction_eq, bind_some, hent.functions_eq,
    bind_eq_bind, guard_bind_eq_some_iff, Option.some.injEq, Prod.mk.injEq] at h
  obtain ⟨-, rfl, -⟩ := h
  have hused := hent.used_eq
  refine ⟨⟨⟨rfl, ?_, rfl, rfl⟩, switchProgsParms_prTypecurrent hloaded,
    switchProgsParms_localstack, ?_⟩, switchProgsParms_exitdepth⟩
  · change vm.localstackUsed - f.locals - vm₀.spushed = vm₀.localstackUsed
    omega
  · rintro callee' ⟨⟩ f' hf' o ho
    obtain rfl : f = f' := some.inj (hent.functions_eq.symm.trans hf')
    have hword : vm.localstackUsed - f.locals + (o - f.parmStart) =
        vm₀.localstackUsed + vm₀.spushed + (o - f.parmStart) := by omega
    have hrestored : (Progs.restoreLocals vm f (vm.localstackUsed - f.locals)).globals
        callee.progs o = vm₀.globals callee.progs o := by
      simp only [Progs.restoreLocals, hent.prTypecurrent_eq, ho, and_self, if_true, hword]
      exact hent.saved o ho
    by_cases hp : callee.progs = vm₀.prTypecurrent
    · -- The progs stay: nothing moves.
      have hself : vm₀.prTypecurrent = (Progs.restoreLocals vm f (vm.localstackUsed - f.locals)).prTypecurrent :=
        hp.symm.trans hent.prTypecurrent_eq.symm
      change (ps.switchProgsParms _ vm₀.prTypecurrent).globals _ _ = _
      rw [hself, switchProgsParms_self, hrestored]
    · exact (switchProgsParms_globals_of_ne hp).trans hrestored

theorem Entered.leave {v : PrInst} (hent : Entered ps ls vm₀ callee f vm) (hloaded : ps.loaded vm₀.prTypecurrent)
    (rs : List Region) (h : ps.leaveFunction v = some (vm', s)) (hsame : SameFrame vm v)
    (htype : v.prTypecurrent = vm.prTypecurrent) (hls : v.localstack = ls) :
    Left ps ls ⟨vm₀, some callee, rs⟩ vm' ∧ vm'.exitdepth = v.exitdepth := by
  subst hls
  exact (hent.of_sameFrame hsame htype).leaveFunction hloaded rs h

/-- The end of `PR_ExecuteProgram`, once its functions are left. -/
theorem Left.finish {a : Activation} {s : QcState} (hl : Left ps ls a vm)
    (h₀ : Consistent ps ls a.caller cs a.regions calls)
    (hfin : ps.finish vm (.executeProgram a.caller.prTypecurrent a.caller.exitdepth :: cs) = some s) :
    Consistent ps ls s.vm s.cstack a.regions calls ∧ Restored ps a s.vm ∧
      s.vm.localstack = ls := by
  obtain rfl := some.inj hfin
  have hself : ps.switchProgsParms vm a.caller.prTypecurrent = vm := by
    rw [← hl.prTypecurrent_eq, switchProgsParms_self]
  rw [hself]
  have hsame : SameFrame a.caller { vm with exitdepth := a.caller.exitdepth } :=
    ⟨hl.prStack_eq, hl.used_eq, hl.spushed_eq, hl.prXfunction_eq⟩
  exact ⟨h₀.of_sameFrame hsame rfl hl.prTypecurrent_eq,
    ⟨hsame, rfl, hl.prTypecurrent_eq, hl.locals_eq⟩, hl.localstack_eq⟩

/-- The calls above the innermost `PR_ExecuteProgram` were left: that call was `a`. -/
structure Unwound (ps : Progs) (ls : ℤ → BitVec 32) (vm : PrInst) (cs : List CFrame)
    (calls : List Activation) (vm' : PrInst) (a : Activation) (cs₀ : List CFrame) : Prop where
  call_eq : calls[vm.prStack.length - vm.exitdepth - 1]? = some a
  cstack_eq : cs = .executeProgram a.caller.prTypecurrent a.caller.exitdepth :: cs₀
  consistent : Consistent ps ls a.caller cs₀ a.regions
    (calls.drop (vm.prStack.length - vm.exitdepth))
  pushed_eq : ∃ st, vm.prStack[vm.prStack.length - vm.exitdepth - 1]? = some st ∧
    st.pushed = a.caller.spushed
  left : Left ps ls a vm'

theorem leaveFunctions_succ (n : ℕ) (v : PrInst) :
    ps.leaveFunctions (n + 1) v = (ps.leaveFunction v).bind fun r => ps.leaveFunctions n r.1 :=
  rfl

/-- Leaving all functions of the innermost `PR_ExecuteProgram`, by the calls that are recorded. -/
theorem Consistent.leaveFunctions (h : Consistent ps ls vm cs rs calls) (hcode : RunsCode cs) {v v' : PrInst}
    (hv' : ps.leaveFunctions (vm.prStack.length - vm.exitdepth) v = some v') (hsame : SameFrame vm v)
    (htype : v.prTypecurrent = vm.prTypecurrent) (hls : v.localstack = ls) :
    ∃ a cs₀, Unwound ps ls vm cs calls v' a cs₀ := by
  induction h generalizing v with
  | start hstack hbound hloaded => exact hcode.elim
  | @enter vm₀ vm cs cs' rs₀ rs calls callee f h₀ hent hrs hcs ih =>
    obtain ⟨s, hs⟩ := hent.prStack_eq
    have hlen : vm.prStack.length = vm₀.prStack.length + 1 := by rw [hs, length_cons]
    rcases hcs with ⟨hcode₀, rfl, hexit⟩ | ⟨hhost, rfl, hexit⟩
    · -- A call between functions: leave it, and go on with the caller.
      have hlt := h₀.exitdepth_lt hcode₀
      obtain ⟨n, hn⟩ : ∃ n, vm₀.prStack.length - vm₀.exitdepth = n + 1 :=
        ⟨vm₀.prStack.length - vm₀.exitdepth - 1, by omega⟩
      have hcount : vm.prStack.length - vm.exitdepth = n + 1 + 1 := by omega
      rw [hcount, leaveFunctions_succ, bind_eq_some_iff] at hv'
      obtain ⟨⟨v₁, s₁⟩, hv₁, hrest⟩ := hv'
      obtain ⟨hleft, -⟩ := hent.leave h₀.loaded rs₀ hv₁ hsame htype hls
      obtain ⟨a, cs₀, hu⟩ := ih hcode₀ (by rw [hn]; exact hrest) hleft.toSameFrame
        hleft.prTypecurrent_eq hleft.localstack_eq
      obtain ⟨st, hst, hpushed⟩ := hu.pushed_eq
      rw [hn, Nat.add_sub_cancel] at hst
      have hcall := hu.call_eq
      have hcons := hu.consistent
      rw [hn, Nat.add_sub_cancel] at hcall
      rw [hn] at hcons
      refine ⟨a, cs₀, ?_, hu.cstack_eq, ?_, ⟨st, ?_, hpushed⟩, hu.left⟩
      · rw [hcount, Nat.add_sub_cancel, getElem?_cons_succ, hcall]
      · rwa [hcount, drop_succ_cons]
      · rw [hcount, Nat.add_sub_cancel, hs, getElem?_cons_succ, hst]
    · -- The call that started `PR_ExecuteProgram`: nothing is left to leave.
      have hcount : vm.prStack.length - vm.exitdepth = 1 := by omega
      rw [hcount, leaveFunctions_succ, bind_eq_some_iff] at hv'
      obtain ⟨⟨v₁, s₁⟩, hv₁, hrest⟩ := hv'
      obtain rfl : v₁ = v' := some.inj hrest
      obtain ⟨hleft, -⟩ := hent.leave h₀.loaded rs₀ hv₁ hsame htype hls
      refine ⟨⟨vm₀, some callee, rs₀⟩, cs, ?_, rfl, ?_, ?_, hleft⟩
      · rw [hcount]
        rfl
      · rw [hcount]
        exact h₀
      · rw [hcount, hs]
        exact ⟨_, rfl, rfl⟩
  | host h₀ hsame₀ hexit hloaded hcs ih =>
    rcases hcs with ⟨-, rfl⟩ | ⟨-, rfl⟩
    · exact hcode.elim
    · exact hcode.elim

/-! ## Entering -/

/-- Entering a function that there is room for. The words that were in use stay. -/
theorem Enters.enterFunction (he : Enters ps vm₀ callee)
    (h : ps.enterFunction vm callee f vm₀.prTypecurrent = some (vm', s)) (hf : ps.functions callee = some f)
    (hloaded : ps.loaded callee.progs) (hsame : SameFrame vm₀ vm) (htype : vm.prTypecurrent = callee.progs)
    (hls : vm.localstack = vm₀.localstack)
    (hglobals : ∀ o, f.Owns o → vm.globals callee.progs o = vm₀.globals callee.progs o) :
    Entered ps vm'.localstack vm₀ callee f vm' ∧ vm'.exitdepth = vm.exitdepth ∧
      s = f.firstStatement - 1 ∧
      ∀ i, i < vm₀.localstackUsed + vm₀.spushed → vm'.localstack i = vm₀.localstack i := by
  have hdepth : vm.prStack.length ≠ maxStackDepth := by
    rw [hsame.prStack_eq]
    exact he.depth_lt.ne
  have hsize : ¬localstackSize < vm.localstackUsed + vm.spushed + f.locals := by
    rw [hsame.used_eq, hsame.spushed_eq]
    exact not_lt.2 (he.locals_le f hf)
  simp only [Progs.enterFunction, if_neg hdepth, if_neg hsize, bind_eq_bind,
    guard_bind_eq_some_iff, Option.some.injEq, Prod.mk.injEq] at h
  obtain ⟨-, rfl, rfl⟩ := h
  refine ⟨⟨hf, hloaded, he.locals_nonneg f hf, ⟨vm.prXstatement, ?_⟩, ?_, rfl, htype, le_rfl, ?_, ?_⟩, rfl, rfl, ?_⟩
  · simp only [hsame.prStack_eq, hsame.prXfunction_eq, hsame.spushed_eq]
  · simp only [hsame.used_eq, hsame.spushed_eq]
  · simpa [hsame.used_eq, hsame.spushed_eq] using he.locals_le f hf
  · rintro o ⟨ho₁, ho₂⟩
    simp only [hsame.used_eq, hsame.spushed_eq]
    rw [if_pos (by omega), htype, ← hglobals o ⟨ho₁, ho₂⟩]
    congr 1
    omega
  · intro i hi
    simp only [hsame.used_eq, hsame.spushed_eq]
    rw [if_neg (by omega), hls]

theorem Enters.switchProgsParms_globals (he : Enters ps vm callee)
    (hf : ps.functions callee = some f) {o : ℤ} (ho : f.Owns o) :
    (ps.switchProgsParms vm callee.progs).globals callee.progs o = vm.globals callee.progs o := by
  by_cases hp : callee.progs = vm.prTypecurrent
  · rw [hp, switchProgsParms_self]
  · exact switchProgsParms_globals_of_not_moved (he.not_moved hp f hf o ho)

/-- Pushing onto the words of the running function. -/
theorem Consistent.push (h : Consistent ps ls vm cs rs calls) (hcode : RunsCode cs) {n : ℤ}
    (hn : 0 ≤ n) (hle : vm.localstackUsed + vm.spushed + n ≤ localstackSize)
    (hsame : SameFrame { vm with spushed := vm.spushed + n } vm')
    (hexit : vm'.exitdepth = vm.exitdepth) (htype : vm'.prTypecurrent = vm.prTypecurrent) :
    Consistent ps ls vm' cs (⟨vm.localstackUsed + vm.spushed, n⟩ :: rs) calls := by
  cases h with
  | start hstack hbound hloaded => exact hcode.elim
  | @enter vm₀ _ cs₀ _ rs₀ _ calls callee f h₀ hent hrs hcs =>
    have hspushed := hent.spushed_nonneg
    have hent' : Entered ps ls vm₀ callee f { vm with spushed := vm.spushed + n } :=
      { hent with
        spushed_nonneg := add_nonneg hspushed hn
        le_size := by
          change vm.localstackUsed + (vm.spushed + n) ≤ _
          omega }
    refine .enter h₀ (hent'.of_sameFrame hsame htype) ?_ (by rwa [hexit])
    intro r hr
    rw [hsame.used_eq, hsame.spushed_eq]
    change vm.localstackUsed ≤ r.start ∧ r.start + r.words ≤ vm.localstackUsed + (vm.spushed + n)
    rcases mem_cons.1 hr with rfl | hr
    · change vm.localstackUsed ≤ vm.localstackUsed + vm.spushed ∧ vm.localstackUsed + vm.spushed + n ≤ _
      omega
    · have := hrs r hr
      omega
  | host h₀ hsame₀ hexit₀ hloaded hcs =>
    rcases hcs with ⟨-, rfl⟩ | ⟨-, rfl⟩
    · exact hcode.elim
    · exact hcode.elim

end Consistency

/-! ## Steps -/

section Steps

variable {ps : Progs} {t : Tracked} {s : QcState}

/-- The records of a state are right. -/
def Tracked.Good (ps : Progs) (t : Tracked) : Prop :=
  Consistent ps t.vm.localstack t.vm t.cstack t.regions t.calls

variable {callee : FuncRef} {op : QcOp} {st : ℤ}

/-- Steps that leave the stack of words as it is, and push nothing. -/
theorem Kept.of_localstack_eq {t' : Tracked} (hgood : t'.Good ps) (hls : t'.vm.localstack = t.vm.localstack)
    (hop : ∀ o words, op ≠ .push o words) (hrestored : ∀ a ∈ t.ended op, Restored ps a t'.vm) : Kept ps t op t' where
  bounded := Consistent.bounded hgood
  handed_eq _ i _ := by rw [hls]
  fresh o words h := absurd h (hop o words)
  restored := hrestored

theorem good_assign (ht : t.Good ps) {progs : ℕ} {o : ℤ} {value : BitVec 32}
    (hexec : ps.exec t.toQcState (.assign progs o value) = some s) :
    (t.next s (.assign progs o value)).Good ps ∧
      Kept ps t (.assign progs o value) (t.next s (.assign progs o value)) := by
  have hs := some.inj hexec
  have hgood : (t.next s (.assign progs o value)).Good ps := by
    rw [← hs]
    exact ht.of_sameFrame ⟨rfl, rfl, rfl, rfl⟩ rfl rfl
  refine ⟨hgood, .of_localstack_eq hgood ?_ (by simp) (by simp [Tracked.ended])⟩
  rw [← hs]
  rfl

theorem good_store (ht : t.Good ps) {i : ℤ} {value : BitVec 32} (hlegal : Handed t.regions t.calls i)
    (hexec : ps.exec t.toQcState (.store i value) = some s) :
    (t.next s (.store i value)).Good ps ∧
      Kept ps t (.store i value) (t.next s (.store i value)) := by
  have hs := some.inj hexec
  have hstore := ht.store hlegal value
  have hgood : (t.next s (.store i value)).Good ps := by
    rw [← hs]
    exact hstore.of_sameFrame ⟨rfl, rfl, rfl, rfl⟩ rfl rfl
  exact ⟨hgood, hgood.bounded, fun h => absurd rfl (h i value), by simp, by simp [Tracked.ended]⟩

theorem good_push (ht : t.Good ps) {o : ℤ} {words : BitVec 32}
    (hroom : t.vm.localstackUsed + t.vm.spushed + words.toNat < localstackSize)
    (hexec : ps.exec t.toQcState (.push o words) = some s) :
    (t.next s (.push o words)).Good ps ∧
      Kept ps t (.push o words) (t.next s (.push o words)) := by
  have h₁ := ht.bounded.used_nonneg
  have h₂ := ht.bounded.spushed_nonneg
  have hsize : localstackSize = 2 ^ 20 := rfl
  have hwrap : Int.bmod (t.vm.spushed + words.toNat) (2 ^ 32) = t.vm.spushed + words.toNat :=
    Int.bmod_eq_of_le (by omega) (by omega)
  have hnot : ¬localstackSize ≤ t.vm.spushed + words.toNat + t.vm.localstackUsed := by omega
  by_cases hcode : RunsCode t.cstack
  · simp only [Progs.exec, if_pos hcode, Progs.execPush, hwrap, bind_eq_bind,
      map_eq_some_iff, guard_bind_eq_some_iff, if_neg hnot, Option.some.injEq] at hexec
    obtain ⟨v, ⟨-, hv⟩, rfl⟩ := hexec
    have hgood : (t.next { t.toQcState with vm := v } (.push o words)).Good ps := by
      rw [← hv]
      exact ht.push hcode (Int.natCast_nonneg _) hroom.le ⟨rfl, rfl, rfl, rfl⟩ rfl rfl
    refine ⟨hgood, hgood.bounded, ?_, ?_, by simp [Tracked.ended]⟩
    · intro _ i _
      rw [← hv]
      rfl
    · rintro _ _ - r hr i hi hhanded
      -- What is handed out lies above what was.
      obtain rfl := (List.cons.inj hr).1
      have hlow := (ht.handed_bound hhanded).2
      exact absurd hi.1 (not_le.2 hlow)
  · simp [Progs.exec, hcode] at hexec

/-- A function is entered from `t`, by code or by a builtin. -/
theorem Tracked.Good.into (ht : t.Good ps) {f : QcFunction}
    (hent : Entered ps s.vm.localstack t.vm callee f s.vm)
    (hls : ∀ i, i < t.vm.localstackUsed + t.vm.spushed →
      s.vm.localstack i = t.vm.localstack i)
    (hcs : RunsCode t.cstack ∧ s.cstack = t.cstack ∧ s.vm.exitdepth = t.vm.exitdepth ∨
      ¬RunsCode t.cstack ∧
        s.cstack = .executeProgram t.vm.prTypecurrent t.vm.exitdepth :: t.cstack ∧
        s.vm.exitdepth = t.vm.prStack.length) :
    (t.into s (some callee)).Good ps := by
  have hlow := ht.bounded.spushed_nonneg
  change Consistent ps s.vm.localstack s.vm s.cstack [] _
  exact .enter (ht.congr fun i hi => hls i (by omega)) hent (by simp) hcs

/-- Entering a function keeps what it has to. -/
theorem Kept.into (ht : t.Good ps) (hgood : (t.into s (some callee)).Good ps)
    (hls : ∀ i, i < t.vm.localstackUsed + t.vm.spushed → s.vm.localstack i = t.vm.localstack i)
    (hop : ∀ o words, op ≠ .push o words) (hended : t.ended op = none) :
    Kept ps t op (t.into s (some callee)) where
  bounded := hgood.bounded
  handed_eq _ i hi := hls i (ht.handed_bound hi).2
  fresh o words h := absurd h (hop o words)
  restored := by simp [hended]

theorem good_execute (ht : t.Good ps) (henters : Enters ps t.vm callee)
    (hexec : ps.exec t.toQcState (.execute callee) = some s) :
    (t.next s (.execute callee)).Good ps ∧
      Kept ps t (.execute callee) (t.next s (.execute callee)) := by
  by_cases hcode : RunsCode t.cstack
  · simp [Progs.exec, hcode] at hexec
  · simp only [Progs.exec, if_neg hcode] at hexec
    obtain ⟨hprogs, h⟩ := guard_bind_eq_some_iff.1 hexec
    obtain ⟨f, hf, h⟩ := bind_eq_some_iff.1 h
    obtain ⟨-, h⟩ := guard_bind_eq_some_iff.1 h
    obtain ⟨⟨v, s'⟩, hv, h⟩ := bind_eq_some_iff.1 h
    have hs := some.inj h
    have hloaded : ps.loaded callee.progs := hprogs.elim (fun h => h ▸ ht.loaded) id
    have hsame := switchProgsParms_sameFrame ps t.vm callee.progs
    obtain ⟨hent, hexit, -, hls⟩ := henters.enterFunction hv hf hloaded
      ⟨hsame.prStack_eq, hsame.used_eq, hsame.spushed_eq, hsame.prXfunction_eq⟩
      (switchProgsParms_prTypecurrent hloaded) switchProgsParms_localstack
      (fun o ho => henters.switchProgsParms_globals hf ho)
    have hgood : (t.into s (some callee)).Good ps := by
      rw [← hs]
      refine ht.into hent hls (.inr ⟨hcode, ?_, ?_⟩)
      · change CFrame.executeProgram _ (ps.switchProgsParms _ _).exitdepth :: _ = _
        rw [switchProgsParms_exitdepth]
      · change v.exitdepth = _
        rw [hexit, ← hsame.prStack_eq]
    refine ⟨hgood, .into ht hgood ?_ (by simp) rfl⟩
    rw [← hs]
    exact hls

/-- The innermost `PR_ExecuteProgram` ends, all its functions left. -/
theorem Unwound.finish {v v' : PrInst} {a : Activation} {cs₀ : List CFrame}
    (hu : Unwound ps t.vm.localstack t.vm t.cstack t.calls v a cs₀)
    (hl : Left ps t.vm.localstack a v') (hfin : ps.finish v' t.cstack = some s) :
    (t.back s t.above).Good ps ∧ (∀ a ∈ t.calls[t.above - 1]?, Restored ps a s.vm) ∧
      s.vm.localstack = t.vm.localstack := by
  rw [hu.cstack_eq] at hfin
  obtain ⟨hcons, hrestored, hls⟩ := hl.finish hu.consistent hfin
  have hcall : t.calls[t.above - 1]? = some a := hu.call_eq
  refine ⟨?_, ?_, hls⟩
  · simp only [Tracked.Good, Tracked.back, hcall, elim_some, hls]
    exact hcons
  · rw [hcall]
    rintro _ ⟨⟩
    exact hrestored

theorem good_runaway (ht : t.Good ps) (hpushed : ∀ st, t.vm.prStack[t.above - 1]? = some st → st.pushed = 0)
    (hexec : ps.exec t.toQcState (.runaway st) = some s) :
    (t.next s (.runaway st)).Good ps ∧ Kept ps t (.runaway st) (t.next s (.runaway st)) := by
  by_cases hcode : RunsCode t.cstack
  · simp only [Progs.exec, if_pos hcode] at hexec
    obtain ⟨v, hv, hfin⟩ := bind_eq_some_iff.1 hexec
    obtain ⟨a, cs₀, hu⟩ := ht.leaveFunctions hcode hv ⟨rfl, rfl, rfl, rfl⟩ rfl rfl
    obtain ⟨fr, hfr, hpush⟩ := hu.pushed_eq
    have hzero := hpushed fr hfr
    have hleft : Left ps t.vm.localstack a { v with spushed := 0 } :=
      { hu.left with spushed_eq := hzero.symm.trans hpush }
    obtain ⟨hgood, hrestored, hls⟩ := hu.finish hleft hfin
    exact ⟨hgood, .of_localstack_eq hgood hls (by simp) hrestored⟩
  · simp [Progs.exec, hcode] at hexec

theorem good_call (ht : t.Good ps) (hop : Enters ps t.vm callee ∨
      t.vm.prStack.length = maxStackDepth ∧ callee.progs = t.vm.prTypecurrent)
    (hexec : ps.exec t.toQcState (.call st callee) = some s) :
    (t.next s (.call st callee)).Good ps ∧
      Kept ps t (.call st callee) (t.next s (.call st callee)) := by
  by_cases hcode : RunsCode t.cstack
  · simp only [Progs.exec, if_pos hcode] at hexec
    obtain ⟨hloaded, h⟩ := guard_bind_eq_some_iff.1 hexec
    obtain ⟨f, hf, h⟩ := bind_eq_some_iff.1 h
    obtain ⟨hfirst, h⟩ := guard_bind_eq_some_iff.1 h
    obtain ⟨⟨v, s'⟩, hv, h⟩ := bind_eq_some_iff.1 h
    rcases hop with henters | ⟨hdepth, hprogs⟩
    · have hsame := switchProgsParms_sameFrame ps
        { t.vm with prXstatement := st, callprogs := t.vm.prTypecurrent } callee.progs
      have henters' : Enters ps { t.vm with
          prXstatement := st, callprogs := t.vm.prTypecurrent } callee :=
        ⟨henters.depth_lt, henters.locals_nonneg, henters.locals_le, henters.not_moved⟩
      obtain ⟨hent, hexit, hs', hls⟩ := henters.enterFunction hv hf hloaded
        ⟨hsame.prStack_eq, hsame.used_eq, hsame.spushed_eq, hsame.prXfunction_eq⟩
        (switchProgsParms_prTypecurrent hloaded) switchProgsParms_localstack
        (fun o ho => henters'.switchProgsParms_globals hf ho)
      have hne : ¬s' = -1 := by omega
      have hs := some.inj ((if_neg hne).symm.trans h)
      have hgood : (t.into s (some callee)).Good ps := by
        rw [← hs]
        refine ht.into hent hls (.inl ⟨hcode, rfl, ?_⟩)
        rw [hexit, switchProgsParms_exitdepth]
      have hnot : ¬t.vm.prStack.length = maxStackDepth := henters.depth_lt.ne
      have hnext : t.next s (.call st callee) = t.into s (some callee) := if_neg hnot
      rw [hnext]
      refine ⟨hgood, .into ht hgood ?_ (by simp) (if_neg hnot)⟩
      rw [← hs]
      exact hls
    · -- The stack overflows: the functions of this `PR_ExecuteProgram` are left.
      have hself : ps.switchProgsParms { t.vm with prXstatement := st, callprogs := t.vm.prTypecurrent } callee.progs =
          { t.vm with prXstatement := st, callprogs := t.vm.prTypecurrent } := by
        rw [hprogs]
        exact switchProgsParms_self
      rw [hself, Progs.enterFunction, if_pos hdepth] at hv
      obtain ⟨v₁, hv₁, h₁⟩ := bind_eq_some_iff.1 hv
      obtain ⟨rfl, rfl⟩ := Prod.mk.inj (some.inj h₁)
      obtain ⟨a, cs₀, hu⟩ := ht.leaveFunctions hcode hv₁ ⟨rfl, rfl, rfl, rfl⟩ rfl rfl
      have hleft : Left ps t.vm.localstack a { v₁ with prXstatement := -1 } := { hu.left with }
      obtain ⟨hgood, hrestored, hls⟩ := hu.finish hleft ((if_pos rfl).symm.trans h)
      have hnext : t.next s (.call st callee) = t.back s t.above := if_pos hdepth
      have hended : t.ended (.call st callee) = t.calls[t.above - 1]? := if_pos hdepth
      rw [hnext]
      exact ⟨hgood, .of_localstack_eq hgood hls (by simp) (by rwa [hended])⟩
  · simp [Progs.exec, hcode] at hexec

theorem good_ret (ht : t.Good ps) {a : ℤ} (hexec : ps.exec t.toQcState (.ret a) = some s) :
    (t.next s (.ret a)).Good ps ∧ Kept ps t (.ret a) (t.next s (.ret a)) := by
  by_cases hcode : RunsCode t.cstack
  · simp only [Progs.exec, if_pos hcode] at hexec
    obtain ⟨⟨v, s'⟩, hv, h⟩ := bind_eq_some_iff.1 hexec
    obtain ⟨vm₀, cs₀, rs₀, calls₀, callee, f, hcalls, h₀, hent, hcs⟩ :=
      ht.enter_of_runsCode hcode
    obtain ⟨hleft, hexit⟩ := hent.leave h₀.loaded rs₀ hv ⟨rfl, rfl, rfl, rfl⟩ rfl rfl
    suffices hs : Consistent ps t.vm.localstack s.vm s.cstack rs₀ calls₀ ∧
        Restored ps ⟨vm₀, some callee, rs₀⟩ s.vm ∧ s.vm.localstack = t.vm.localstack by
      obtain ⟨hcons, hrestored, hls⟩ := hs
      have hgood : (t.next s (.ret a)).Good ps := by
        simp only [Tracked.Good, Tracked.next, Tracked.back, hcalls, hls]
        exact hcons
      refine ⟨hgood, .of_localstack_eq hgood hls (by simp) ?_⟩
      simp only [Tracked.ended, hcalls, head?_cons]
      rintro _ ⟨⟩
      exact hrestored
    have hlen : v.prStack.length = vm₀.prStack.length := by rw [hleft.prStack_eq]
    rcases hcs with ⟨hcode₀, hcs, hexit₀⟩ | ⟨-, hcs, hexit₀⟩
    · -- The caller goes on.
      have hlt := h₀.exitdepth_lt hcode₀
      have hexit' : v.exitdepth = vm₀.exitdepth := hexit.trans hexit₀
      have hne : ¬v.prStack.length = v.exitdepth := by omega
      obtain rfl := some.inj ((if_neg hne).symm.trans h)
      refine ⟨?_, ⟨hleft.toSameFrame, hexit', hleft.prTypecurrent_eq, hleft.locals_eq⟩, hleft.localstack_eq⟩
      rw [hcs]
      exact h₀.of_sameFrame hleft.toSameFrame hexit' hleft.prTypecurrent_eq
    · -- `PR_ExecuteProgram` ends.
      have heq : v.prStack.length = v.exitdepth := hlen.trans (hexit.trans hexit₀).symm
      have hfin := (if_pos heq).symm.trans h
      rw [hcs] at hfin
      have hleft' : Left ps t.vm.localstack ⟨vm₀, some callee, rs₀⟩ { v with prXstatement := s' } :=
        { hleft with }
      exact hleft'.finish h₀ hfin
  · simp [Progs.exec, hcode] at hexec

/-- A builtin starts. -/
theorem Tracked.Good.host (ht : t.Good ps) (hsame : SameFrame t.vm s.vm)
    (hexit : s.vm.exitdepth = t.vm.exitdepth) (hloaded : ps.loaded s.vm.prTypecurrent)
    (hls : s.vm.localstack = t.vm.localstack)
    (hcs : RunsCode t.cstack ∧ s.cstack = .builtin :: t.cstack ∨
      ¬RunsCode t.cstack ∧ s.cstack = .direct t.vm.prTypecurrent :: t.cstack) :
    (t.into s none).Good ps := by
  simp only [Tracked.Good, Tracked.into, hls]
  exact .host ht hsame hexit hloaded hcs

theorem good_callBuiltin (ht : t.Good ps) (hexec : ps.exec t.toQcState (.callBuiltin st callee) = some s) :
    (t.next s (.callBuiltin st callee)).Good ps ∧
      Kept ps t (.callBuiltin st callee) (t.next s (.callBuiltin st callee)) := by
  by_cases hcode : RunsCode t.cstack
  · simp only [Progs.exec, if_pos hcode] at hexec
    obtain ⟨hloaded, h⟩ := guard_bind_eq_some_iff.1 hexec
    obtain ⟨f, hf, h⟩ := bind_eq_some_iff.1 h
    obtain ⟨-, h⟩ := guard_bind_eq_some_iff.1 h
    have hs := some.inj h
    have hsame := (switchProgsParms_sameFrame ps
      { t.vm with prXstatement := st, callprogs := t.vm.prTypecurrent } callee.progs)
    have hsame' := switchProgsParms_sameFrame ps (ps.switchProgsParms
      { t.vm with prXstatement := st, callprogs := t.vm.prTypecurrent } callee.progs) 0
    have hls : s.vm.localstack = t.vm.localstack := by simp [← hs]
    have hgood : (t.into s none).Good ps := by
      refine ht.host ?_ ?_ ?_ hls (.inl ⟨hcode, by rw [← hs]⟩)
      · rw [← hs]
        exact ⟨hsame'.prStack_eq.trans hsame.prStack_eq, hsame'.used_eq.trans hsame.used_eq,
          hsame'.spushed_eq.trans hsame.spushed_eq,
          hsame'.prXfunction_eq.trans hsame.prXfunction_eq⟩
      · simp [← hs]
      · rw [← hs]
        exact switchProgsParms_loaded (by rwa [switchProgsParms_prTypecurrent hloaded])
    exact ⟨hgood, .of_localstack_eq hgood hls (by simp) (by simp [Tracked.ended])⟩
  · simp [Progs.exec, hcode] at hexec

theorem good_executeBuiltin (ht : t.Good ps) (hexec : ps.exec t.toQcState (.executeBuiltin callee) = some s) :
    (t.next s (.executeBuiltin callee)).Good ps ∧
      Kept ps t (.executeBuiltin callee) (t.next s (.executeBuiltin callee)) := by
  by_cases hcode : RunsCode t.cstack
  · simp [Progs.exec, hcode] at hexec
  · simp only [Progs.exec, if_neg hcode] at hexec
    obtain ⟨hprogs, h⟩ := guard_bind_eq_some_iff.1 hexec
    obtain ⟨f, hf, h⟩ := bind_eq_some_iff.1 h
    obtain ⟨-, h⟩ := guard_bind_eq_some_iff.1 h
    have hs := some.inj h
    have hls : s.vm.localstack = t.vm.localstack := by simp [← hs]
    have hgood : (t.into s none).Good ps := by
      refine ht.host ?_ ?_ ?_ hls (.inr ⟨hcode, by rw [← hs]⟩)
      · rw [← hs]
        exact switchProgsParms_sameFrame ps t.vm callee.progs
      · simp [← hs]
      · rw [← hs]
        exact switchProgsParms_loaded ht.loaded
    exact ⟨hgood, .of_localstack_eq hgood hls (by simp) (by simp [Tracked.ended])⟩

/-- A builtin returns to the progs it was called from. -/
theorem good_backHost {vm₀ : PrInst} {calls₀ : List Activation} {newpr : ℕ} {cs : List CFrame}
    (hcalls : t.calls = ⟨vm₀, none, t.regions⟩ :: calls₀) (h₀ : Consistent ps t.vm.localstack vm₀ cs t.regions calls₀)
    (hsame : SameFrame vm₀ t.vm) (hexit : t.vm.exitdepth = vm₀.exitdepth) (hprogs : newpr = vm₀.prTypecurrent)
    (hs : s = ⟨ps.switchProgsParms t.vm newpr, cs⟩) :
    (t.next s .endBuiltin).Good ps ∧ Kept ps t .endBuiltin (t.next s .endBuiltin) := by
  have hloaded : ps.loaded newpr := hprogs ▸ h₀.loaded
  have hsame' := switchProgsParms_sameFrame ps t.vm newpr
  have hls : s.vm.localstack = t.vm.localstack := by simp [hs]
  have hrestored : Restored ps ⟨vm₀, none, t.regions⟩ s.vm := by
    rw [hs]
    refine ⟨⟨hsame'.prStack_eq.trans hsame.prStack_eq, hsame'.used_eq.trans hsame.used_eq,
      hsame'.spushed_eq.trans hsame.spushed_eq,
      hsame'.prXfunction_eq.trans hsame.prXfunction_eq⟩, ?_, ?_, by simp⟩
    · rw [switchProgsParms_exitdepth, hexit]
    · rw [switchProgsParms_prTypecurrent hloaded, hprogs]
  have hgood : (t.next s .endBuiltin).Good ps := by
    simp only [Tracked.Good, Tracked.next, Tracked.back, hcalls, hls]
    rw [hs]
    exact h₀.of_sameFrame (hs ▸ hrestored.toSameFrame) (hs ▸ hrestored.exitdepth_eq) (hs ▸ hrestored.prTypecurrent_eq)
  refine ⟨hgood, .of_localstack_eq hgood hls (by simp) ?_⟩
  simp only [Tracked.ended, hcalls, head?_cons]
  rintro _ ⟨⟩
  exact hrestored

theorem good_endBuiltin (ht : t.Good ps)
    (hop : ∀ cstack, t.cstack = .builtin :: cstack → t.vm.prXstatement ≠ -1 ∧
      ∀ f ∈ t.vm.prXfunction, f.progs = t.vm.callprogs)
    (hexec : ps.exec t.toQcState .endBuiltin = some s) :
    (t.next s .endBuiltin).Good ps ∧ Kept ps t .endBuiltin (t.next s .endBuiltin) := by
  simp only [Progs.exec] at hexec
  match hcs : t.cstack with
  | [] => simp [hcs, Progs.execEndBuiltin] at hexec
  | .executeProgram _ _ :: _ => simp [hcs, Progs.execEndBuiltin] at hexec
  | .builtin :: cs =>
    have hhost := ht
    rw [Tracked.Good, hcs] at hhost
    obtain ⟨vm₀, calls₀, hcalls, h₀, hsame, hexit, hcode⟩ := hhost.host_of_builtin
    obtain ⟨hne, hprogs⟩ := hop cs hcs
    obtain ⟨_, _, _, _, callee, f, -, -, hent, -⟩ := h₀.enter_of_runsCode hcode
    have hcallprogs : t.vm.callprogs = vm₀.prTypecurrent := by
      rw [hent.prTypecurrent_eq]
      exact (hprogs callee (hsame.prXfunction_eq.trans hent.prXfunction_eq)).symm
    simp only [hcs, Progs.execEndBuiltin, switchProgsParms_prXstatement, if_neg hne, Option.some.injEq] at hexec
    exact good_backHost hcalls h₀ hsame hexit hcallprogs hexec.symm
  | .direct initialProgs :: cs =>
    have hhost := ht
    rw [Tracked.Good, hcs] at hhost
    obtain ⟨vm₀, calls₀, hcalls, h₀, hsame, hexit, hprogs⟩ := hhost.host_of_direct
    simp only [hcs, Progs.execEndBuiltin, Option.some.injEq] at hexec
    exact good_backHost hcalls h₀ hsame hexit hprogs hexec.symm

theorem Tracked.Good.step (ht : t.Good ps) (hlegal : op.Legal t)
    (hop : ps.Meets t op) (hexec : ps.exec t.toQcState op = some s) :
    (t.next s op).Good ps ∧ Kept ps t op (t.next s op) := by
  cases op with
  | assign progs o value => exact good_assign ht hexec
  | store i value => exact good_store ht hlegal hexec
  | push o words => exact good_push ht hop hexec
  | call st callee => exact good_call ht hop hexec
  | callBuiltin st callee => exact good_callBuiltin ht hexec
  | ret a => exact good_ret ht hexec
  | runaway st => exact good_runaway ht hop hexec
  | execute callee => exact good_execute ht hop hexec
  | executeBuiltin callee => exact good_executeBuiltin ht hexec
  | endBuiltin => exact good_endBuiltin ht hop hexec

end Steps

/-! ## Every run -/

/-- A machine that runs nothing. -/
structure PrInst.Idle (ps : Progs) (vm : PrInst) : Prop where
  prStack_eq : vm.prStack = []
  bounded : Bounded vm
  loaded : ps.loaded vm.prTypecurrent

theorem QcRun.good {ps : Progs} {vm₀ : PrInst} {t : Tracked} (hidle : vm₀.Idle ps)
    (hr : QcRun ps ps.Meets vm₀ t) : t.Good ps := by
  induction hr with
  | start => exact .start hidle.prStack_eq hidle.bounded hidle.loaded
  | step op hr hlegal hop hexec ih => exact (ih.step hlegal hop hexec).1

/-- In a run whose steps meet their conditions, a call that returns and a `PR_ExecuteProgram` that
ends leave the machine as they found it, the stack of words has room for what is on it, and only the
program writes to memory that `OP_PUSH` handed out. -/
theorem qcRun_discipline {ps : Progs} {vm₀ : PrInst} {t : Tracked} (hidle : vm₀.Idle ps)
    (hr : QcRun ps ps.Meets vm₀ t) : Discipline ps ps.Meets t where
  bounded := (hr.good hidle).bounded
  kept _ _ hlegal hop hexec := ((hr.good hidle).step hlegal hop hexec).2

/-! ## A runaway loop below a builtin -/

namespace Runaway

/-- One progs with a function of two locals and a builtin. -/
def progs : Progs where
  loaded p := p = 0
  numglobals _ := 64
  functions f :=
    if f = ⟨0, 1⟩ then some ⟨1, 30, 2, []⟩ else if f = ⟨0, 2⟩ then some ⟨-1, 0, 0, []⟩ else none
  shares := []
  localstackOfs := 0

def machine : PrInst where
  globals _ _ := 0
  localstack _ := 0
  localstackUsed := 0
  spushed := 0
  prStack := []
  exitdepth := 0
  prXfunction := none
  prXstatement := 0
  prTypecurrent := 0
  callprogs := 0

theorem machine_idle : machine.Idle progs := ⟨rfl, ⟨le_rfl, le_rfl, by decide⟩, rfl⟩

theorem enters : Enters progs machine ⟨0, 1⟩ where
  depth_lt := by decide
  locals_nonneg := by
    rintro _ ⟨⟩
    decide
  locals_le := by
    rintro _ ⟨⟩
    decide
  not_moved h := absurd rfl h

/-- A function pushes five words and calls a builtin, which runs a function. -/
def ops : List QcOp := [.execute ⟨0, 1⟩, .push 40 5, .callBuiltin 1 ⟨0, 2⟩, .execute ⟨0, 1⟩]

end Runaway

/-- Steps one after another. -/
def Tracked.execAll (ps : Progs) : List QcOp → Tracked → Option Tracked
  | [], t => some t
  | op :: ops, t => (ps.exec t.toQcState op).bind fun s => execAll ps ops (t.next s op)

theorem QcRun.execAll {ps : Progs} {vm₀ : PrInst} {ops : List QcOp} {t t' : Tracked}
    (hr : QcRun ps (fun _ _ => True) vm₀ t) (hops : ∀ op ∈ ops, ∀ i value, op ≠ .store i value)
    (hexec : t.execAll ps ops = some t') : QcRun ps (fun _ _ => True) vm₀ t' := by
  induction ops generalizing t with
  | nil =>
    obtain rfl := some.inj hexec
    exact hr
  | cons op ops ih =>
    obtain ⟨s, hs, hrest⟩ := bind_eq_some_iff.1 hexec
    have hop := hops op mem_cons_self
    refine ih (.step op hr ?_ trivial hs) (fun o ho => hops o (mem_cons_of_mem op ho)) hrest
    cases op with
    | store i value => exact absurd rfl (hop i value)
    | _ => trivial

theorem qcRun_discipline_execute : ∃ t, QcRun Runaway.progs Runaway.progs.Meets Runaway.machine t ∧
    t.vm.localstackUsed = 2 ∧ Discipline Runaway.progs Runaway.progs.Meets t := by
  obtain ⟨s, hs⟩ : ∃ s, Runaway.progs.exec ⟨Runaway.machine, []⟩ (.execute ⟨0, 1⟩) = some s ∧
      s.vm.localstackUsed = 2 := ⟨_, rfl, rfl⟩
  have hstart : QcRun Runaway.progs Runaway.progs.Meets Runaway.machine
      ⟨⟨Runaway.machine, []⟩, [], []⟩ := .start
  have hrun := hstart.step (.execute ⟨0, 1⟩) trivial Runaway.enters hs.1
  exact ⟨_, hrun, hs.2, qcRun_discipline Runaway.machine_idle hrun⟩

/-- A runaway loop forgets what the function below the builtin has pushed. -/
theorem qcRun_discipline_runaway :
    ¬∀ (ps : Progs) (vm₀ : PrInst) (t : Tracked), vm₀.Idle ps → QcRun ps (fun _ _ => True) vm₀ t →
      Discipline ps (fun _ _ => True) t := by
  intro hall
  have hvalues : ((Tracked.execAll Runaway.progs Runaway.ops ⟨⟨Runaway.machine, []⟩, [], []⟩).bind
      fun t => (Runaway.progs.exec t.toQcState (.runaway 0)).bind fun s =>
        (t.ended (.runaway 0)).map fun a => (a.caller.spushed, s.vm.spushed)) = some (5, 0) := by
    decide +kernel
  obtain ⟨t, ht, h⟩ := Option.bind_eq_some_iff.1 hvalues
  obtain ⟨s, hs, h⟩ := Option.bind_eq_some_iff.1 h
  obtain ⟨a, ha, h⟩ := Option.map_eq_some_iff.1 h
  obtain ⟨hcaller, hend⟩ := Prod.mk.inj h
  have hrun := QcRun.start.execAll (by simp [Runaway.ops]) ht
  have hkept := (hall _ _ t Runaway.machine_idle hrun).kept (.runaway 0) s trivial trivial hs
  have hspushed := (hkept.restored a ha).spushed_eq
  change s.vm.spushed = _ at hspushed
  omega

end FteQuake
