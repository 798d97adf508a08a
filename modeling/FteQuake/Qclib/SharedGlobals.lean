import Mathlib.Data.BitVec
import FteQuake.Lib.Memory

/-!
# Shared globals

`PR_SwitchProgsParms` of `pr_multi.c` takes the parameters, the return value and the shared variables along from one
progs to the next. `QC_AddSharedVar` keeps the shared variables as a list of ranges. A range that begins where a
listed one ends makes that one longer. A range that begins where a listed one begins is left out, also when it is the
longer one (`covers_addSharedVar`).

As long as no range is left out that has a word of its own, the progs work on one memory (`run_shared`).
-/

namespace FteQuake

namespace SharedGlobals

/-! ## The list of ranges -/

/-- `sharedvar_t`. -/
structure Sharedvar where
  varofs : ℕ
  size : ℕ
  deriving DecidableEq

/-- Word `o` is one of a range. -/
def Sharedvar.Has (r : Sharedvar) (o : ℕ) : Prop := r.varofs ≤ o ∧ o < r.varofs + r.size

instance (r : Sharedvar) (o : ℕ) : Decidable (r.Has o) := inferInstanceAs (Decidable (_ ∧ _))

/-- Word `o` is one of a list of ranges. -/
def Covers (l : List Sharedvar) (o : ℕ) : Prop := ∃ r ∈ l, r.Has o

instance (l : List Sharedvar) (o : ℕ) : Decidable (Covers l o) := inferInstanceAs (Decidable (∃ _ ∈ _, _))

/-- `QC_AddSharedVar`. -/
def addSharedVar (r : Sharedvar) : List Sharedvar → List Sharedvar
  | [] => [r]
  | e :: l =>
    if e.varofs + e.size = r.varofs then ⟨e.varofs, e.size + r.size⟩ :: l
    else if e.varofs = r.varofs then e :: l
    else e :: addSharedVar r l

/-- The list after `QC_StartShares` and a sequence of calls. -/
def sharesOf (adds : List Sharedvar) : List Sharedvar := adds.foldl (fun l r => addSharedVar r l) []

/-- The entry at which a call stops. -/
def stop (start : ℕ) (l : List Sharedvar) : Option Sharedvar :=
  l.find? fun e => e.varofs + e.size = start ∨ e.varofs = start

/-- A call does not lose a word: it does not stop at an entry that begins where its range does, or all words of the
range are listed already. -/
def Keeps (r : Sharedvar) (l : List Sharedvar) : Prop :=
  (∀ e ∈ stop r.varofs l, e.varofs + e.size = r.varofs) ∨ ∀ o, r.Has o → Covers l o

/-- No call of a sequence loses a word. -/
def KeepsAll : List Sharedvar → List Sharedvar → Prop
  | _, [] => True
  | l, r :: adds => Keeps r l ∧ KeepsAll (addSharedVar r l) adds

@[simp] theorem covers_nil (o : ℕ) : ¬Covers [] o := by simp [Covers]

@[simp] theorem covers_cons (r : Sharedvar) (l : List Sharedvar) (o : ℕ) :
    Covers (r :: l) o ↔ r.Has o ∨ Covers l o := by simp [Covers]

@[simp] theorem covers_append (l l' : List Sharedvar) (o : ℕ) : Covers (l ++ l') o ↔ Covers l o ∨ Covers l' o := by
  simp [Covers, or_and_right, exists_or]

variable {adds l : List Sharedvar} {m : Mem (BitVec 32)} {np op : Progstate} {r : Sharedvar} {n : ℕ}

/-- A range that is made longer has the words of both. -/
theorem has_extend {e : Sharedvar} (h : e.varofs + e.size = r.varofs) (o : ℕ) :
    Sharedvar.Has ⟨e.varofs, e.size + r.size⟩ o ↔ e.Has o ∨ r.Has o := by
  simp only [Sharedvar.Has]
  omega

/-- What a call lists: the words of its range, unless it stops at an entry that only begins with it. -/
theorem covers_addSharedVar (r : Sharedvar) (l : List Sharedvar) (o : ℕ) :
    Covers (addSharedVar r l) o ↔
      Covers l o ∨ r.Has o ∧ ∀ e ∈ stop r.varofs l, e.varofs + e.size = r.varofs := by
  induction l with
  | nil => simp [addSharedVar, stop]
  | cons e l ih =>
    rw [addSharedVar]
    split
    next hend => simp [stop, hend, has_extend hend, or_right_comm]
    next hend =>
      split
      next hstart =>
        have hstop : stop r.varofs (e :: l) = some e := List.find?_cons_of_pos (by simp [hstart])
        simp [hstop, hend]
      next hstart =>
        have hstop : stop r.varofs (e :: l) = stop r.varofs l := List.find?_cons_of_neg (by simp [hend, hstart])
        rw [hstop, covers_cons, covers_cons, ih, or_assoc]

/-- A call lists its range, besides what was listed, exactly when it does not lose a word. -/
theorem covers_addSharedVar_iff_keeps (r : Sharedvar) (l : List Sharedvar) :
    (∀ o, Covers (addSharedVar r l) o ↔ Covers l o ∨ r.Has o) ↔ Keeps r l := by
  simp only [covers_addSharedVar, Keeps]
  constructor
  · intro h
    refine or_iff_not_imp_left.mpr fun hstop o ho => ?_
    exact ((h o).mpr (.inr ho)).resolve_right fun hr => hstop hr.2
  · rintro (hstop | hcovers) o
    · rw [and_iff_left hstop]
    · rw [or_iff_left_of_imp (hcovers o), or_iff_left_of_imp fun ho => hcovers o ho.1]

theorem covers_foldl_addSharedVar (hkeeps : KeepsAll l adds) (o : ℕ) :
    Covers (adds.foldl (fun l r => addSharedVar r l) l) o ↔ Covers l o ∨ Covers adds o := by
  induction adds generalizing l with
  | nil => simp
  | cons r adds ih =>
    obtain ⟨hr, hadds⟩ := hkeeps
    rw [List.foldl_cons, ih hadds, (covers_addSharedVar_iff_keeps r l).mpr hr, covers_cons, or_assoc]

/-- The words of all ranges are listed. -/
theorem covers_sharesOf (hkeeps : KeepsAll [] adds) (o : ℕ) :
    Covers (sharesOf adds) o ↔ Covers adds o := by
  rw [sharesOf, covers_foldl_addSharedVar hkeeps, or_iff_right (covers_nil o)]

/-! ## Switching -/

/-- The globals of a progs. -/
structure Progstate where
  globals : Mem (BitVec 32)
  numglobals : ℕ

/-- The progs, which of them is the current one, and the list of shared variables. -/
structure PrInst where
  progstate : ℕ → Option Progstate
  typecurrent : ℕ
  shares : List Sharedvar

/-- `memmove` of a range of globals to the same place in another progs. -/
def memmoveGlobals (op np : Progstate) (r : Sharedvar) : Option Progstate :=
  if r.varofs + r.size ≤ op.numglobals ∧ r.varofs + r.size ≤ np.numglobals then
    some { np with globals := np.globals.blit r.varofs (op.globals.slice r.varofs r.size) }
  else none

/-- `OFS_RETURN`. -/
def ofsReturn : ℕ := 1

/-- `OFS_PARM0`. -/
def ofsParm0 : ℕ := 4

/-- `MAX_PARMS`. -/
def maxParms : ℕ := 8

/-- What is copied before the shared variables, three words for each parameter and three for the return value. -/
def parms : List Sharedvar := (List.range maxParms).map (fun a => ⟨ofsParm0 + 3 * a, 3⟩) ++ [⟨ofsReturn, 3⟩]

/-- `PR_SwitchProgsParms`. Progs that are not loaded are refused. -/
def PrInst.switchProgsParms (vm : PrInst) (newpr : ℕ) : Option PrInst :=
  if newpr = vm.typecurrent then some vm
  else
    match vm.progstate newpr, vm.progstate vm.typecurrent with
    | none, _ => some vm
    | some _, none => some { vm with typecurrent := newpr }
    | some np, some op => do
      let np ← (parms ++ vm.shares).foldlM (memmoveGlobals op) np
      some { vm with progstate := fun p => if p = newpr then some np else vm.progstate p, typecurrent := newpr }

/-- What happens to the globals. -/
inductive Op
  | write (ofs : ℕ) (v : BitVec 32)
  | switch (newpr : ℕ)

/-- A write goes to the current progs. -/
def PrInst.write (vm : PrInst) (ofs : ℕ) (v : BitVec 32) : Option PrInst := do
  let pr ← vm.progstate vm.typecurrent
  if ofs < pr.numglobals then
    some { vm with
      progstate := fun p =>
        if p = vm.typecurrent then some { pr with globals := pr.globals.store ofs v } else vm.progstate p }
  else none

def PrInst.exec (vm : PrInst) : Op → Option PrInst
  | .write ofs v => vm.write ofs v
  | .switch newpr => vm.switchProgsParms newpr

/-- A sequence of writes and switches. -/
def PrInst.run (vm : PrInst) (ops : List Op) : Option PrInst := ops.foldlM PrInst.exec vm

/-- One memory in place of the progs. -/
def Op.apply (m : Mem (BitVec 32)) : Op → Mem (BitVec 32)
  | write ofs v => m.store ofs v
  | switch _ => m

/-- What was written last to each word, in whichever progs. -/
def lastWritten (m : Mem (BitVec 32)) (ops : List Op) : Mem (BitVec 32) := ops.foldl Op.apply m

/-! ## One memory -/

theorem memmoveGlobals_eq_some {np' : Progstate} (h : memmoveGlobals op np r = some np') (o : ℕ) :
    np'.numglobals = np.numglobals ∧ (r.Has o → np'.globals o = op.globals o) ∧
      (¬r.Has o → np'.globals o = np.globals o) := by
  rw [memmoveGlobals] at h
  split at h
  · cases h
    refine ⟨rfl, fun ho => ?_, fun ho => ?_⟩
    · obtain ⟨i, rfl⟩ := Nat.exists_eq_add_of_le ho.1
      have hi : i < (op.globals.slice r.varofs r.size).length := by
        rw [Mem.length_slice]
        exact Nat.lt_of_add_lt_add_left ho.2
      exact (Mem.blit_apply_add _ _ _ hi).trans (Mem.getElem_slice _ _ _ _ hi)
    · rcases Nat.lt_or_ge o r.varofs with hlt | hge
      · exact Mem.blit_apply_lt _ _ hlt
      · exact Mem.blit_apply_ge _ _ (by rw [Mem.length_slice]; exact not_lt.mp fun hlt => ho ⟨hge, hlt⟩)
  · cases h

/-- What a list of ranges copies. -/
theorem copies {np' : Progstate} (h : l.foldlM (memmoveGlobals op) np = some np') (o : ℕ) :
    np'.numglobals = np.numglobals ∧ (Covers l o → np'.globals o = op.globals o) ∧
      (¬Covers l o → np'.globals o = np.globals o) := by
  induction l generalizing np with
  | nil =>
    cases h
    simp
  | cons r l ih =>
    rw [List.foldlM_cons, Option.bind_eq_bind, Option.bind_eq_some_iff] at h
    obtain ⟨np₁, hr, hl⟩ := h
    obtain ⟨hsize, hhas, hnot⟩ := memmoveGlobals_eq_some hr o
    obtain ⟨hsize', hcovers, hnot'⟩ := ih hl
    refine ⟨hsize'.trans hsize, fun ho => ?_, fun ho => ?_⟩
    · by_cases hlist : Covers l o
      · exact hcovers hlist
      · exact (hnot' hlist).trans (hhas (((covers_cons r l o).mp ho).resolve_right hlist))
    · rw [covers_cons, not_or] at ho
      exact (hnot' ho.2).trans (hnot ho.1)

/-- Ranges within the globals of both progs are copied. -/
theorem copies_isSome (hop : ∀ r ∈ l, r.varofs + r.size ≤ op.numglobals)
    (hnp : ∀ r ∈ l, r.varofs + r.size ≤ np.numglobals) :
    (l.foldlM (memmoveGlobals op) np).isSome := by
  induction l generalizing np with
  | nil => rfl
  | cons r l ih =>
    obtain ⟨hop, hops⟩ := List.forall_mem_cons.mp hop
    obtain ⟨hnp, hnps⟩ := List.forall_mem_cons.mp hnp
    rw [List.foldlM_cons, memmoveGlobals, if_pos ⟨hop, hnp⟩]
    exact ih hops hnps

/-- The words that move with a switch have the values of one memory, in the current progs. -/
def Coherent (vm : PrInst) (m : Mem (BitVec 32)) : Prop :=
  ∃ pr, vm.progstate vm.typecurrent = some pr ∧ ∀ o, Covers (parms ++ vm.shares) o → pr.globals o = m o

/-- How many globals each progs has. -/
def PrInst.sizes (vm : PrInst) (p : ℕ) : Option ℕ := (vm.progstate p).map Progstate.numglobals

/-- Every range that moves is within the globals of every progs. -/
def Fits (vm : PrInst) : Prop := ∀ p, ∀ n ∈ vm.sizes p, ∀ r ∈ parms ++ vm.shares, r.varofs + r.size ≤ n

variable {vm vm' : PrInst}

theorem coherent_write (hcoherent : Coherent vm m) {ofs : ℕ} {v : BitVec 32}
    (h : vm.write ofs v = some vm') : Coherent vm' (m.store ofs v) := by
  obtain ⟨pr, hpr, hm⟩ := hcoherent
  rw [PrInst.write, hpr, Option.bind_eq_bind, Option.bind_some] at h
  split at h
  · cases h
    refine ⟨_, if_pos rfl, fun o ho => ?_⟩
    simp only [Mem.store]
    split
    · rfl
    · exact hm o ho
  · cases h

theorem coherent_switchProgsParms (hcoherent : Coherent vm m) {newpr : ℕ}
    (h : vm.switchProgsParms newpr = some vm') : Coherent vm' m := by
  obtain ⟨op, hop, hm⟩ := hcoherent
  rw [PrInst.switchProgsParms, hop] at h
  split at h
  · cases h
    exact ⟨op, hop, hm⟩
  · cases hnp : vm.progstate newpr with
    | none =>
      rw [hnp] at h
      cases h
      exact ⟨op, hop, hm⟩
    | some np =>
      rw [hnp] at h
      obtain ⟨np', hcopy, hvm⟩ := Option.bind_eq_some_iff.mp h
      cases hvm
      exact ⟨np', if_pos rfl, fun o ho => ((copies hcopy o).2.1 ho).trans (hm o ho)⟩

/-- One write or switch of the progs is one of the memory. -/
theorem coherent_exec (hcoherent : Coherent vm m) {op : Op} (h : vm.exec op = some vm') :
    Coherent vm' (op.apply m) := by
  cases op with
  | write ofs v => exact coherent_write hcoherent h
  | switch newpr => exact coherent_switchProgsParms hcoherent h

theorem coherent_run {ops : List Op} (hcoherent : Coherent vm m) (h : vm.run ops = some vm') :
    Coherent vm' (lastWritten m ops) := by
  induction ops generalizing vm m with
  | nil =>
    cases h
    exact hcoherent
  | cons op ops ih =>
    rw [PrInst.run, List.foldlM_cons, Option.bind_eq_bind, Option.bind_eq_some_iff] at h
    obtain ⟨vm₁, hop, hops⟩ := h
    exact ih (coherent_exec hcoherent hop) hops

theorem exec_frame {op : Op} (h : vm.exec op = some vm') : vm'.shares = vm.shares ∧ vm'.sizes = vm.sizes := by
  cases op with
  | write ofs v =>
    obtain ⟨pr, hpr, hwrite⟩ := Option.bind_eq_some_iff.mp h
    split at hwrite
    · cases hwrite
      refine ⟨rfl, funext fun p => ?_⟩
      simp only [PrInst.sizes]
      split
      next hp => rw [hp, hpr]; rfl
      next => rfl
    · cases hwrite
  | switch newpr =>
    rw [PrInst.exec, PrInst.switchProgsParms] at h
    split at h
    · cases h
      exact ⟨rfl, rfl⟩
    · split at h
      · cases h
        exact ⟨rfl, rfl⟩
      · cases h
        exact ⟨rfl, rfl⟩
      next np op hnp hop =>
        obtain ⟨np', hcopy, hvm⟩ := Option.bind_eq_some_iff.mp h
        cases hvm
        refine ⟨rfl, funext fun p => ?_⟩
        simp only [PrInst.sizes]
        split
        next hp => rw [hp, hnp]; exact congrArg some (copies hcopy 0).1
        next => rfl

theorem run_frame {ops : List Op} (h : vm.run ops = some vm') : vm'.shares = vm.shares ∧ vm'.sizes = vm.sizes := by
  induction ops generalizing vm with
  | nil =>
    cases h
    exact ⟨rfl, rfl⟩
  | cons op ops ih =>
    rw [PrInst.run, List.foldlM_cons, Option.bind_eq_bind, Option.bind_eq_some_iff] at h
    obtain ⟨vm₁, hop, hops⟩ := h
    obtain ⟨hshares, hsizes⟩ := exec_frame hop
    rw [← hshares, ← hsizes]
    exact ih hops

theorem switchProgsParms_isSome (hfits : Fits vm) (newpr : ℕ) : (vm.switchProgsParms newpr).isSome := by
  rw [PrInst.switchProgsParms]
  split
  · rfl
  · split
    · rfl
    · rfl
    next np op hnp hop =>
      have hcopies : ((parms ++ vm.shares).foldlM (memmoveGlobals op) np).isSome :=
        copies_isSome (hfits vm.typecurrent _ (by rw [PrInst.sizes, hop]; rfl))
          (hfits newpr _ (by rw [PrInst.sizes, hnp]; rfl))
      obtain ⟨np', hnp'⟩ := Option.isSome_iff_exists.mp hcopies
      rw [hnp']
      rfl

/-- Entries stay within the globals that all ranges are within. -/
theorem addSharedVar_le (hr : r.varofs + r.size ≤ n)
    (hl : ∀ e ∈ l, e.varofs + e.size ≤ n) : ∀ e ∈ addSharedVar r l, e.varofs + e.size ≤ n := by
  induction l with
  | nil => simpa [addSharedVar] using hr
  | cons e l ih =>
    obtain ⟨he, hl'⟩ := List.forall_mem_cons.mp hl
    rw [addSharedVar]
    split
    next hend => exact List.forall_mem_cons.mpr ⟨by simp only; omega, hl'⟩
    next =>
      split
      · exact hl
      · exact List.forall_mem_cons.mpr ⟨he, ih hl'⟩

theorem foldl_addSharedVar_le (hadds : ∀ r ∈ adds, r.varofs + r.size ≤ n) (hl : ∀ e ∈ l, e.varofs + e.size ≤ n) :
    ∀ e ∈ adds.foldl (fun l r => addSharedVar r l) l, e.varofs + e.size ≤ n := by
  induction adds generalizing l with
  | nil => exact hl
  | cons r adds ih =>
    obtain ⟨hr, hadds'⟩ := List.forall_mem_cons.mp hadds
    exact ih hadds' (addSharedVar_le hr hl)

theorem parms_le (hn : 28 ≤ n) : ∀ r ∈ parms, r.varofs + r.size ≤ n := by
  have hparms : ∀ r ∈ parms, r.varofs + r.size ≤ 28 := by decide
  exact fun r hr => (hparms r hr).trans hn

/-- **The progs work on one memory, as long as no range is left out.** -/
theorem run_shared {adds : List Sharedvar} {cur : Progstate} {ops : List Op} (hkeeps : KeepsAll [] adds)
    (hshares : vm.shares = sharesOf adds) (hcur : vm.progstate vm.typecurrent = some cur)
    (hfits : ∀ p, ∀ n ∈ vm.sizes p, 28 ≤ n ∧ ∀ r ∈ adds, r.varofs + r.size ≤ n) (hrun : vm.run ops = some vm') :
    (∃ pr, vm'.progstate vm'.typecurrent = some pr ∧
      ∀ o, Covers (parms ++ adds) o → pr.globals o = lastWritten cur.globals ops o) ∧
    ∀ newpr, (vm'.switchProgsParms newpr).isSome := by
  obtain ⟨hshares', hsizes⟩ := run_frame hrun
  obtain ⟨pr, hpr, hm⟩ := coherent_run ⟨cur, hcur, fun _ _ => rfl⟩ hrun
  refine ⟨⟨pr, hpr, fun o ho => hm o ?_⟩, switchProgsParms_isSome fun p n hn => ?_⟩
  · rw [hshares', hshares, covers_append, covers_sharesOf hkeeps, ← covers_append]
    exact ho
  · rw [hsizes] at hn
    obtain ⟨hparms, hadds⟩ := hfits p n hn
    rw [hshares', hshares]
    exact List.forall_mem_append.mpr ⟨parms_le hparms, foldl_addSharedVar_le hadds (by simp)⟩

/-- Two ranges of which the second begins with the first and is not longer. -/
theorem run_shared_repeated : ∃ vm' pr, PrInst.run ⟨fun _ => some ⟨fun _ => 0, 200⟩, 0, sharesOf [⟨100, 3⟩, ⟨100, 1⟩]⟩
    [.write 101 7, .switch 1] = some vm' ∧ vm'.progstate vm'.typecurrent = some pr ∧ pr.globals 101 = 7 := by
  have hkeeps : KeepsAll [] [⟨100, 3⟩, ⟨100, 1⟩] := by
    refine ⟨.inl nofun, .inr fun o ho => ⟨⟨100, 3⟩, List.mem_singleton_self _, ?_⟩, trivial⟩
    simp only [Sharedvar.Has] at ho ⊢
    omega
  have hrun : PrInst.run ⟨fun _ => some ⟨fun _ => 0, 200⟩, 0, sharesOf [⟨100, 3⟩, ⟨100, 1⟩]⟩
    [.write 101 7, .switch 1] = some _ := rfl
  obtain ⟨⟨pr, hpr, hm⟩, -⟩ := run_shared hkeeps rfl rfl (fun p n hn => by cases hn; decide) hrun
  exact ⟨_, pr, hrun, hpr, hm 101 (by decide)⟩

/-- The second range begins with the first and is longer. Its other words stay behind. -/
theorem run_shared_lost : Covers [⟨100, 1⟩, ⟨100, 3⟩] 101 ∧
    lastWritten (fun _ => 0) [.write 101 7, .switch 1] 101 = 7 ∧
    (do
      let vm ← PrInst.run ⟨fun _ => some ⟨fun _ => 0, 200⟩, 0, sharesOf [⟨100, 1⟩, ⟨100, 3⟩]⟩ [.write 101 7, .switch 1]
      let pr ← vm.progstate vm.typecurrent
      some (pr.globals 101)) = some 0 :=
  ⟨by decide, rfl, rfl⟩

end SharedGlobals

end FteQuake
