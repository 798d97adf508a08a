import FteQuake.Lib.FlowGraph
import Mathlib.Data.Int.Basic
import Mathlib.Logic.Function.Basic
import Mathlib.Tactic.Common

/-!
# The end of a function and its jumps

`QCC_PR_FinaliseFunction` of `qcc_pr_comp.c` puts a `DONE` behind the statements of a function, or
leaves it out when the function ends with a `RETURN` and `QCC_FuncJumpsTo` finds no jump to its end.
`QCC_CompoundJumps` then moves each jump to a `GOTO` on to where the `GOTO` goes, in place. Both ask
the table of opcodes for operands without a type and take them for jumps.

`Func.graph` is the function as a flow graph: the jumps are those of `execloop.h`. The limits of
`BOUNDCHECK` have no type and are no jumps.
-/

namespace FteQuake

open Function

namespace Qcc

/-- The opcodes, as far as jumps tell them apart. -/
inductive Opcode
  | done
  | ret
  | goto
  | ifI
  | ifnotI
  | ifF
  | ifnotF
  | ifS
  | ifnotS
  | switchF
  | switchV
  | switchS
  | switchE
  | switchFnc
  | switchI
  | case
  | caserange
  | boundcheck
  | other (code : ℕ)
  deriving DecidableEq, Repr

/-- The operands of a statement. -/
inductive Slot
  | a
  | b
  | c
  deriving DecidableEq, Repr

namespace Opcode

/-- `type_a`, `type_b` or `type_c` of `pr_opcodes` is `NULL`. -/
def typeIsNull : Opcode → Slot → Bool
  | goto, .a => true
  | ifI, .b | ifnotI, .b | ifF, .b | ifnotF, .b | ifS, .b | ifnotS, .b => true
  | switchF, .b | switchV, .b | switchS, .b | switchE, .b | switchFnc, .b | switchI, .b => true
  | case, .b => true
  | caserange, .c => true
  | boundcheck, .b | boundcheck, .c => true
  | _, _ => false

/-- The operand by which the machine jumps. -/
def jump : Opcode → Option Slot
  | goto => some .a
  | ifI | ifnotI | ifF | ifnotF | ifS | ifnotS => some .b
  | switchF | switchV | switchS | switchE | switchFnc | switchI => some .b
  | case => some .b
  | caserange => some .c
  | _ => none

/-- The machine jumps whatever the other operands hold. -/
def always : Opcode → Bool
  | goto | switchF | switchV | switchS | switchE | switchFnc | switchI => true
  | _ => false

/-- `OP_RETURN` or `OP_DONE`. -/
def isEnd : Opcode → Bool
  | done | ret => true
  | _ => false

end Opcode

/-- `QCC_sref_t`: the symbol and the offset, of which jumps use the offset. -/
structure Sref where
  sym : Option ℕ
  jumpofs : ℤ
  deriving DecidableEq, Repr

/-- `nullsref`. -/
def nullsref : Sref := ⟨none, 0⟩

/-- `QCC_statement_t`. -/
@[ext] structure Statement where
  op : Opcode
  a : Sref
  b : Sref
  c : Sref
  deriving DecidableEq, Repr

namespace Statement

def sref (s : Statement) : Slot → Sref
  | .a => s.a
  | .b => s.b
  | .c => s.c

/-- The offset of an operand is written. -/
def setOfs (s : Statement) (ofs : ℤ) : Slot → Statement
  | .a => { s with a.jumpofs := ofs }
  | .b => { s with b.jumpofs := ofs }
  | .c => { s with c.jumpofs := ofs }

end Statement

/-- The table `statements`. What lies outside the function that is compiled is left from others. -/
abbrev Statements := ℤ → Statement

/-! ## The code -/

/-- `QCC_FuncJumpsTo`, for the `n` statements from `first` on. -/
def funcJumpsTo (statements : Statements) (first : ℤ) (n : ℕ) (statement : ℤ) : Bool :=
  (List.range n).any fun k =>
    let st := first + k
    [Slot.a, Slot.b, Slot.c].any fun slot =>
      (statements st).op.typeIsNull slot &&
        st + ((statements st).sref slot).jumpofs = statement &&
        st ≠ first && !(statements (st - 1)).op.isEnd

/-- The loop that moves one operand of `st` on, for as long as it points at a `GOTO`. -/
def moveOn (slot : Slot) (st : ℤ) : (infloop : ℕ) → (statement : ℤ) → Statements → Statements
  | 0, _, statements => statements
  | infloop + 1, statement, statements =>
    if (statements statement).op = .goto then
      let moved := (statements st).setOfs
        (statement + (statements statement).a.jumpofs - st) slot
      moveOn slot st infloop (st + (moved.sref slot).jumpofs) (Function.update statements st moved)
    else statements

/-- `QCC_CompoundJumps`, for one operand. -/
def compoundSlot (slot : Slot) (st : ℤ) (statements : Statements) : Statements :=
  if (statements st).op.typeIsNull slot then
    moveOn slot st 1000 (st + ((statements st).sref slot).jumpofs) statements
  else statements

/-- `QCC_CompoundJumps`, for the first operand: a `GOTO` to an end becomes that end. -/
def compoundSlotA (st : ℤ) (statements : Statements) : Statements :=
  if (statements st).op.typeIsNull .a then
    let statement := st + (statements st).a.jumpofs
    let statements := if (statements statement).op.isEnd then
      Function.update statements st (statements statement) else statements
    moveOn .a st 1000 statement statements
  else statements

/-- `QCC_CompoundJumps`, for the `n` statements from `st` on. -/
def compoundJumps : (st : ℤ) → (n : ℕ) → Statements → Statements
  | _, 0, statements => statements
  | st, n + 1, statements =>
    compoundJumps (st + 1) n (compoundSlot .c st (compoundSlot .b st (compoundSlotA st statements)))

/-- `QCC_function_t`: where its statements start, how many there are, the value it returns at its
end if it has one, and the stores of `PR_GenerateReturnOuts`. -/
structure Func where
  statements : Statements
  code : ℤ
  length : ℕ
  returndef : Option Sref
  outs : List Statement

namespace Func

variable (f : Func)

/-- `numstatements`. -/
def numstatements : ℤ := f.code + f.length

/-- `QCC_PR_Statement`. -/
def emit (s : Statement) : Func :=
  { f with
    statements := Function.update f.statements f.numstatements s
    length := f.length + 1 }

def emitAll (l : List Statement) : Func := l.foldl emit f

/-- `QCC_PR_FinaliseFunction` up to the return of `returndef`. -/
def withReturn : Func :=
  match f.returndef with
  | none => f
  | some returndef => (f.emitAll f.outs).emit ⟨.ret, returndef, nullsref, nullsref⟩

/-- The last statement is a `RETURN` or a `DONE`. -/
def endsWithReturn : Bool :=
  f.length ≠ 0 && (f.statements (f.numstatements - 1)).op.isEnd

/-- Whether `needsdone` is set. -/
def needsdone (optReturnOnly : Bool) : Bool :=
  if optReturnOnly && f.endsWithReturn then
    funcJumpsTo f.statements f.code f.length f.numstatements
  else !f.endsWithReturn

/-- `QCC_PR_FinaliseFunction` up to the `DONE`. -/
def withDone (optReturnOnly : Bool) : Func :=
  let f := f.withReturn
  let needsdone := f.needsdone optReturnOnly
  if !optReturnOnly || needsdone then
    (if needsdone then f.emitAll f.outs else f).emit ⟨.done, nullsref, nullsref, nullsref⟩
  else f

/-- `QCC_CompoundJumps` on the whole function. -/
def compound : Func := { f with statements := compoundJumps f.code f.length f.statements }

/-- `QCC_PR_FinaliseFunction`. -/
def finalise (optReturnOnly optCompoundJumps : Bool) : Func :=
  if optCompoundJumps then (f.withDone optReturnOnly).compound else f.withDone optReturnOnly

end Func

/-! ## Execution -/

namespace Statement

variable (s : Statement)

/-- What a statement does, apart from where it jumps. -/
def core : Statement := s.op.jump.elim s (s.setOfs 0)

/-- Where control goes from `s` at `i`. -/
def next (i : ℤ) (taken : Bool) : ℤ :=
  s.op.jump.elim (i + 1) fun slot =>
    if taken || s.op.always then i + (s.sref slot).jumpofs else i + 1

def node (i : ℤ) : FlowNode ℤ Statement :=
  if s.op = .goto then .silent (i + s.a.jumpofs)
  else if s.op.isEnd then .stop s
  else .step s.core (s.next i)

end Statement

namespace Func

variable (f : Func)

/-- One of the function's own statements. -/
def Inside (i : ℤ) : Prop := f.code ≤ i ∧ i < f.numstatements

instance (i : ℤ) : Decidable (f.Inside i) := inferInstanceAs (Decidable (_ ∧ _))

/-- The function as a flow graph. -/
def graph : FlowGraph ℤ Statement := fun i => if f.Inside i then (f.statements i).node i else .out

/-- Control can get to `i` from the first statement. -/
def Reach (i : ℤ) : Prop := f.graph.Reach f.code i

/-- No execution leaves the function's statements before it ends. -/
def StaysInside : Prop :=
  ∀ (σ : Type) (m : Statement → σ → σ × Bool) s tr, f.graph.Trace m f.code s tr → none ∉ tr

/-- The same statements, those that only jump left out, are executed from the first on. -/
def SameStatements (g : Func) : Prop :=
  ∀ (σ : Type) (m : Statement → σ → σ × Bool) s tr,
    f.graph.Trace m f.code s tr ↔ g.graph.Trace m g.code s tr

/-- The body of a function: the targets of its jumps are statements of it or its end, and what
`PR_GenerateReturnOuts` emits are stores. -/
structure IsBody : Prop where
  target : ∀ i slot, f.Inside i → (f.statements i).op.jump = some slot →
    f.code ≤ i + ((f.statements i).sref slot).jumpofs ∧
      i + ((f.statements i).sref slot).jumpofs ≤ f.numstatements
  outs : ∀ s ∈ f.outs, ∃ code, s.op = .other code

/-- Control cannot get to the end of a function whose `DONE` is left out. -/
def EndCovered (optReturnOnly : Bool) : Prop :=
  optReturnOnly → f.withReturn.endsWithReturn →
    funcJumpsTo f.withReturn.statements f.code f.withReturn.length f.withReturn.numstatements ∨
      ¬ f.withReturn.Reach f.withReturn.numstatements

/-- No limit of a `BOUNDCHECK` that control can get to, taken for a jump, points at a `GOTO`. -/
def LimitsClear : Prop :=
  ∀ i slot, f.Reach i → f.Inside i → (f.statements i).op = .boundcheck → slot ≠ .a →
    (f.statements (i + ((f.statements i).sref slot).jumpofs)).op ≠ .goto

end Func

/-! ## Moved jumps -/

/-- The `GOTO` at `i` goes to `j`. -/
def GoesTo (P : Statements) (i j : ℤ) : Prop := (P i).op = .goto ∧ j = i + (P i).a.jumpofs

/-- `q` is the statement at `i` with each operand without a type moved along a chain of `GOTO`s. -/
structure Moved (P : Statements) (i : ℤ) (q : Statement) : Prop where
  op : q.op = (P i).op
  sym : ∀ slot, (q.sref slot).sym = ((P i).sref slot).sym
  fixed : ∀ slot, (P i).op.typeIsNull slot = false → q.sref slot = (P i).sref slot
  moved : ∀ slot, (P i).op.typeIsNull slot = true →
    Relation.ReflTransGen (GoesTo P) (i + ((P i).sref slot).jumpofs) (i + (q.sref slot).jumpofs)

/-- `q` is the end that the `GOTO` at `i` leads to. -/
def Ended (P : Statements) (i : ℤ) (q : Statement) : Prop :=
  (P i).op = .goto ∧ ∃ k, Relation.ReflTransGen (GoesTo P) (i + (P i).a.jumpofs) k ∧
    (P k).op.isEnd = true ∧ q = P k

/-- `Q` is `P` with jumps moved. -/
def MovedJumps (P Q : Statements) : Prop := ∀ i, Moved P i (Q i) ∨ Ended P i (Q i)

namespace Opcode

variable {op : Opcode}

theorem typeIsNull_of_isEnd (h : op.isEnd = true) (slot : Slot) :
    op.typeIsNull slot = false := by
  cases op <;> first | rfl | simp [isEnd] at h

theorem typeIsNull_a : op.typeIsNull .a = true ↔ op = .goto := by
  cases op <;> simp [typeIsNull]

/-- The operands by which the machine jumps have no type. -/
theorem typeIsNull_of_jump {slot : Slot} (h : op.jump = some slot) :
    op.typeIsNull slot = true := by
  cases op <;> first | (obtain rfl := Option.some.inj h; rfl) | simp [jump] at h

theorem typeIsNull_of_jump_ne {slot slot' : Slot} (h : op.jump = some slot)
    (hs : slot' ≠ slot) : op.typeIsNull slot' = false := by
  cases op <;> first
    | (obtain rfl := Option.some.inj h; cases slot' <;> first | rfl | contradiction)
    | simp [jump] at h

theorem typeIsNull_of_no_jump (h : op.jump = none) (hop : op ≠ boundcheck)
    (slot : Slot) : op.typeIsNull slot = false := by
  cases op <;> first | rfl | exact absurd rfl hop | simp [jump] at h

end Opcode

namespace Statement

variable {s t : Statement} {slot slot' : Slot} {ofs : ℤ}

theorem ext_sref (hop : s.op = t.op) (h : ∀ slot, s.sref slot = t.sref slot) : s = t :=
  Statement.ext hop (h .a) (h .b) (h .c)

@[simp] theorem setOfs_op : (s.setOfs ofs slot).op = s.op := by cases slot <;> rfl

@[simp] theorem sref_setOfs : (s.setOfs ofs slot).sref slot = ⟨(s.sref slot).sym, ofs⟩ := by
  cases slot <;> rfl

theorem node_eq_step {i : ℤ} {e : Statement} {next : Bool → ℤ} (h : s.node i = .step e next) :
    s.op ≠ .goto ∧ s.op.isEnd = false ∧ e = s.core ∧ next = s.next i := by
  rw [node] at h
  split at h
  · exact absurd h (by simp)
  split at h
  · exact absurd h (by simp)
  next hgoto hend =>
  obtain ⟨rfl, rfl⟩ := FlowNode.step.inj h
  exact ⟨hgoto, by simpa using hend, rfl, rfl⟩

theorem node_eq_silent {i j : ℤ} (h : s.node i = .silent j) :
    s.op = .goto ∧ j = i + s.a.jumpofs := by
  rw [node] at h
  split at h
  · next hgoto => exact ⟨hgoto, (FlowNode.silent.inj h).symm⟩
  split at h
  · exact absurd h (by simp)
  · exact absurd h (by simp)

theorem sref_setOfs_ne (h : slot' ≠ slot) : (s.setOfs ofs slot).sref slot' = s.sref slot' := by
  cases slot <;> cases slot' <;> first | rfl | contradiction

end Statement

theorem Moved.refl (P : Statements) (i : ℤ) : Moved P i (P i) :=
  ⟨rfl, fun _ => rfl, fun _ _ => rfl, fun _ _ => .refl⟩

variable {q : Statement} {P : Statements} {i : ℤ}

/-- A statement without such operands is not changed. -/
theorem Moved.eq (h : Moved P i q) (hnull : ∀ slot, (P i).op.typeIsNull slot = false) : q = P i :=
  Statement.ext_sref h.op fun slot => h.fixed slot (hnull slot)

/-- What a statement does stays, unless it is a bound check. -/
theorem Moved.core (h : Moved P i q) (hbound : (P i).op = .boundcheck → q = P i) : q.core = (P i).core := by
  rw [Statement.core, Statement.core, h.op]
  cases hj : (P i).op.jump with
  | none =>
    by_cases hop : (P i).op = .boundcheck
    · rw [hbound hop]
    · exact h.eq (Opcode.typeIsNull_of_no_jump hj hop)
  | some slot =>
    refine Statement.ext_sref (by simp [h.op]) fun slot' => ?_
    by_cases hs : slot' = slot
    · subst hs
      simp [h.sym]
    · simp only [Option.elim_some]
      rw [Statement.sref_setOfs_ne hs, Statement.sref_setOfs_ne hs, h.fixed _ (Opcode.typeIsNull_of_jump_ne hj hs)]

/-- A bound check whose limits do not point at a `GOTO` is not changed. -/
theorem Moved.eq_of_clear (h : Moved P i q) (hop : (P i).op = .boundcheck)
    (hclear : ∀ slot, slot ≠ .a → (P (i + ((P i).sref slot).jumpofs)).op ≠ .goto) : q = P i := by
  refine Statement.ext_sref h.op fun slot => ?_
  by_cases hs : slot = .a
  · subst hs
    exact h.fixed .a (by rw [hop]; rfl)
  · have hnull : (P i).op.typeIsNull slot = true := by
      rw [hop]
      cases slot <;> first | rfl | contradiction
    have hofs : i + (q.sref slot).jumpofs = i + ((P i).sref slot).jumpofs := by
      rcases (h.moved slot hnull).cases_head with heq | ⟨k, hk, -⟩
      · exact heq.symm
      · exact absurd hk.1 (hclear slot hs)
    have hsym := h.sym slot
    cases hq : q.sref slot
    cases hp : (P i).sref slot
    rw [hq, hp] at hofs hsym
    simp only [Sref.mk.injEq]
    exact ⟨hsym, by simpa using hofs⟩

/-- An operand that is moved once more. -/
theorem Moved.setOfs {k : ℤ} {slot : Slot} (h : Moved P i q) (hnull : (P i).op.typeIsNull slot = true)
    (hk : Relation.ReflTransGen (GoesTo P) (i + (q.sref slot).jumpofs) k) :
    Moved P i (q.setOfs (k - i) slot) := by
  refine ⟨by simp [h.op], fun slot' => ?_, fun slot' hfix => ?_, fun slot' hmov => ?_⟩
  · by_cases hs : slot' = slot
    · subst hs
      simp [h.sym]
    · rw [Statement.sref_setOfs_ne hs, h.sym]
  · have hs : slot' ≠ slot := by
      rintro rfl
      simp [hnull] at hfix
    rw [Statement.sref_setOfs_ne hs, h.fixed _ hfix]
  · by_cases hs : slot' = slot
    · subst hs
      rw [Statement.sref_setOfs]
      have := (h.moved slot' hmov).trans hk
      rwa [show i + (k - i) = k by omega]
    · rw [Statement.sref_setOfs_ne hs]
      exact h.moved _ hmov

namespace MovedJumps

variable {P Q : Statements} {st i j : ℤ} {slot : Slot}

theorem refl (P : Statements) : MovedJumps P P := fun i => .inl (.refl P i)

/-- A `GOTO` of `Q` is one of `P`, and goes where that one leads. -/
theorem goto (h : MovedJumps P Q) (hQ : (Q i).op = .goto) :
    (P i).op = .goto ∧
      Relation.ReflTransGen (GoesTo P) (i + (P i).a.jumpofs) (i + (Q i).a.jumpofs) := by
  rcases h i with hm | ⟨-, k, -, hend, hk⟩
  · have hP : (P i).op = .goto := hm.op.symm.trans hQ
    exact ⟨hP, hm.moved .a (by simp [hP, Opcode.typeIsNull])⟩
  · rw [← hk, hQ] at hend
    simp [Opcode.isEnd] at hend

theorem leads (h : MovedJumps P Q) (hQ : (Q i).op = .goto) :
    Relation.TransGen (GoesTo P) i (i + (Q i).a.jumpofs) := by
  obtain ⟨hP, hto⟩ := h.goto hQ
  exact Relation.TransGen.head' ⟨hP, rfl⟩ hto

/-- An end of `Q` is the end that `P` has there or leads to. -/
theorem isEnd (h : MovedJumps P Q) (hQ : (Q i).op.isEnd = true) :
    ∃ k, Relation.ReflTransGen (GoesTo P) i k ∧ (P k).op.isEnd = true ∧ Q i = P k := by
  rcases h i with hm | ⟨hP, k, hto, hend, hk⟩
  · rw [hm.op] at hQ
    exact ⟨i, .refl, hQ, hm.eq fun slot => Opcode.typeIsNull_of_isEnd hQ slot⟩
  · exact ⟨k, .head ⟨hP, rfl⟩ hto, hend, hk⟩

theorem moved_of_null (h : MovedJumps P Q) (hnull : (Q i).op.typeIsNull slot = true) :
    Moved P i (Q i) := by
  rcases h i with hm | ⟨-, k, -, hend, hk⟩
  · exact hm
  · rw [hk, Opcode.typeIsNull_of_isEnd hend] at hnull
    exact absurd hnull (by decide)

theorem update {q : Statement} (h : MovedJumps P Q) (hq : Moved P st q ∨ Ended P st q) :
    MovedJumps P (Function.update Q st q) := by
  intro i
  by_cases hi : i = st
  · subst hi
    rwa [update_self]
  · rw [update_of_ne hi]
    exact h i

/-- The statement `st` after a turn of the loop. -/
def turned (slot : Slot) (st statement : ℤ) (Q : Statements) : Statement :=
  (Q st).setOfs (statement + (Q statement).a.jumpofs - st) slot

theorem moveOn_succ {n : ℕ} {statement : ℤ} (hgoto : (Q statement).op = .goto) :
    moveOn slot st (n + 1) statement Q = moveOn slot st n (statement + (Q statement).a.jumpofs)
      (Function.update Q st (turned slot st statement Q)) := by
  rw [moveOn, if_pos hgoto]
  simp only [Statement.sref_setOfs]
  rw [show st + (statement + (Q statement).a.jumpofs - st) = statement + (Q statement).a.jumpofs by omega]
  rfl

/-- A turn of the loop leaves a program with moved jumps, in which the operand points at what is
looked at next. -/
theorem turn {statement : ℤ} (h : MovedJumps P Q) (hnull : (Q st).op.typeIsNull slot = true)
    (hst : statement = st + ((Q st).sref slot).jumpofs) (hgoto : (Q statement).op = .goto) :
    MovedJumps P (Function.update Q st (turned slot st statement Q)) ∧
      ((Function.update Q st (turned slot st statement Q)) st).op.typeIsNull slot = true ∧
      statement + (Q statement).a.jumpofs =
        st + (((Function.update Q st (turned slot st statement Q)) st).sref slot).jumpofs := by
  have hto : Relation.ReflTransGen (GoesTo P) (st + ((Q st).sref slot).jumpofs)
      (statement + (Q statement).a.jumpofs) := by
    rw [← hst]
    exact (h.leads hgoto).to_reflTransGen
  have hmoved := h.moved_of_null hnull
  have hP : (P st).op.typeIsNull slot = true := hmoved.op ▸ hnull
  refine ⟨h.update (.inl (hmoved.setOfs hP hto)), ?_, ?_⟩
  · rw [update_self, turned, Statement.setOfs_op]
    exact hnull
  · rw [update_self, turned, Statement.sref_setOfs]
    change _ = st + (statement + (Q statement).a.jumpofs - st)
    omega

/-- The loop moves the operand along a chain of `GOTO`s. -/
theorem moveOn {n : ℕ} {statement : ℤ} (h : MovedJumps P Q) (hnull : (Q st).op.typeIsNull slot = true)
    (hst : statement = st + ((Q st).sref slot).jumpofs) :
    MovedJumps P (moveOn slot st n statement Q) ∧
      Relation.ReflTransGen (GoesTo P) statement
        (st + (((Qcc.moveOn slot st n statement Q) st).sref slot).jumpofs) := by
  induction n generalizing statement Q with
  | zero => exact ⟨h, by rw [Qcc.moveOn, ← hst]⟩
  | succ n ih =>
    by_cases hgoto : (Q statement).op = .goto
    · rw [moveOn_succ hgoto]
      obtain ⟨hupd, hnull', hst'⟩ := h.turn hnull hst hgoto
      obtain ⟨h₁, h₂⟩ := ih hupd hnull' hst'
      exact ⟨h₁, (h.leads hgoto).to_reflTransGen.trans h₂⟩
    · rw [Qcc.moveOn, if_neg hgoto]
      exact ⟨h, by rw [← hst]⟩

end MovedJumps

/-! What the loop does not touch. -/

section Frame

variable {slot : Slot} {st i : ℤ} {n : ℕ} {statement : ℤ} {Q : Statements}

theorem moveOn_of_ne (hi : i ≠ st) : moveOn slot st n statement Q i = Q i := by
  induction n generalizing statement Q with
  | zero => rfl
  | succ n ih =>
    rw [moveOn]
    split
    · rw [ih, update_of_ne hi]
    · rfl

theorem moveOn_op : (moveOn slot st n statement Q st).op = (Q st).op := by
  induction n generalizing statement Q with
  | zero => rfl
  | succ n ih =>
    rw [moveOn]
    split
    · rw [ih, update_self, Statement.setOfs_op]
    · rfl

theorem moveOn_sref {slot' : Slot} (hs : slot' ≠ slot) :
    (moveOn slot st n statement Q st).sref slot' = (Q st).sref slot' := by
  induction n generalizing statement Q with
  | zero => rfl
  | succ n ih =>
    rw [moveOn]
    split
    · rw [ih, update_self, Statement.sref_setOfs_ne hs]
    · rfl

theorem compoundSlot_of_ne (hi : i ≠ st) : compoundSlot slot st Q i = Q i := by
  rw [compoundSlot]
  split
  · exact moveOn_of_ne hi
  · rfl

theorem compoundSlot_op : (compoundSlot slot st Q st).op = (Q st).op := by
  rw [compoundSlot]
  split
  · exact moveOn_op
  · rfl

theorem compoundSlot_sref {slot' : Slot} (hs : slot' ≠ slot) :
    (compoundSlot slot st Q st).sref slot' = (Q st).sref slot' := by
  rw [compoundSlot]
  split
  · exact moveOn_sref hs
  · rfl

theorem compoundSlotA_of_ne (hi : i ≠ st) : compoundSlotA st Q i = Q i := by
  rw [compoundSlotA]
  split
  · rw [moveOn_of_ne hi]
    split
    · exact update_of_ne hi _ _
    · rfl
  · rfl

theorem compoundSlotA_of_not_goto (h : (Q st).op ≠ .goto) : compoundSlotA st Q = Q := by
  rw [compoundSlotA, if_neg]
  rwa [Opcode.typeIsNull_a]

theorem compoundJumps_of_lt (hi : i < st) : compoundJumps st n Q i = Q i := by
  induction n generalizing st Q with
  | zero => rfl
  | succ n ih =>
    have hne : i ≠ st := by omega
    rw [compoundJumps, ih (by omega), compoundSlot_of_ne hne, compoundSlot_of_ne hne,
      compoundSlotA_of_ne hne]

end Frame

namespace MovedJumps

variable {P Q : Statements} {st i j : ℤ} {slot : Slot}

theorem compoundSlot (h : MovedJumps P Q) : MovedJumps P (compoundSlot slot st Q) := by
  rw [Qcc.compoundSlot]
  split
  · next hnull => exact (h.moveOn hnull rfl).1
  · exact h

theorem compoundSlotA (h : MovedJumps P Q) : MovedJumps P (compoundSlotA st Q) := by
  rw [Qcc.compoundSlotA]
  split
  · next hnull =>
    have hgoto : (Q st).op = .goto := Opcode.typeIsNull_a.1 hnull
    by_cases hend : (Q (st + (Q st).a.jumpofs)).op.isEnd = true
    · -- the statement that is copied is an end, where the loop stops at once
      obtain ⟨hP, hto⟩ := h.goto hgoto
      obtain ⟨k, hk, hkend, heq⟩ := h.isEnd hend
      have hupd := h.update (.inr ⟨hP, k, hto.trans hk, hkend, heq⟩)
      have hne : (Function.update Q st (Q (st + (Q st).a.jumpofs)) (st + (Q st).a.jumpofs)).op ≠ .goto := by
        have hself : st + (Q st).a.jumpofs ≠ st := by
          intro hself
          rw [hself, hgoto] at hend
          exact absurd hend (by decide)
        intro hop
        rw [update_of_ne hself] at hop
        rw [hop] at hend
        exact absurd hend (by decide)
      simp only [hend, if_true]
      rw [Qcc.moveOn, if_neg hne]
      exact hupd
    · simp only [hend]
      exact (h.moveOn hnull rfl).1
  · exact h

theorem compoundJumps {n : ℕ} (h : MovedJumps P Q) : MovedJumps P (compoundJumps st n Q) := by
  induction n generalizing st Q with
  | zero => exact h
  | succ n ih => exact ih h.compoundSlotA.compoundSlot.compoundSlot

end MovedJumps

/-! ## The limits of a bound check -/

section Boundcheck

variable {P Q : Statements} {st i first : ℤ} {slot : Slot} {n : ℕ}

theorem Opcode.typeIsNull_boundcheck (hs : slot ≠ .a) :
    Opcode.boundcheck.typeIsNull slot = true := by
  cases slot with
  | a => contradiction
  | b => rfl
  | c => rfl

/-- A limit that points at a `GOTO` is moved, by one `GOTO` at least. -/
theorem compoundSlot_leads (h : MovedJumps P Q) (hs : (Q st).op.typeIsNull slot = true)
    (hgoto : (Q (st + ((Q st).sref slot).jumpofs)).op = .goto) :
    Relation.TransGen (GoesTo P) (st + ((Q st).sref slot).jumpofs)
      (st + ((compoundSlot slot st Q st).sref slot).jumpofs) := by
  obtain ⟨hupd, hs', hst'⟩ := h.turn hs rfl hgoto
  rw [compoundSlot, if_pos hs, show 1000 = 999 + 1 from rfl, MovedJumps.moveOn_succ hgoto]
  exact (h.leads hgoto).trans_left (hupd.moveOn hs' hst').2

/-- `compoundJumps` moves a limit that points at a `GOTO` behind the check. -/
theorem compoundJumps_leads (h : MovedJumps P Q) (hfirst : first ≤ st) (hst : st < first + n)
    (hsame : ∀ j, first ≤ j → Q j = P j) (hop : (P st).op = .boundcheck) (hs : slot ≠ .a)
    (hofs : 0 ≤ ((P st).sref slot).jumpofs) (hgoto : (P (st + ((P st).sref slot).jumpofs)).op = .goto) :
    Relation.TransGen (GoesTo P) (st + ((P st).sref slot).jumpofs)
      (st + ((compoundJumps first n Q st).sref slot).jumpofs) := by
  induction n generalizing first Q with
  | zero => omega
  | succ n ih =>
    rw [compoundJumps]
    by_cases hne : first = st
    · subst hne
      rw [compoundJumps_of_lt (by omega), compoundSlotA_of_not_goto (by simp [hsame, hop])]
      have hnull : (Q first).op.typeIsNull slot = true := by
        rw [hsame first (by omega), hop]
        exact Opcode.typeIsNull_boundcheck hs
      rw [← hsame first (by omega)] at hofs hop hgoto ⊢
      rw [← hsame _ (by omega)] at hgoto
      cases slot with
      | a => contradiction
      | b =>
        rw [compoundSlot_sref (by decide)]
        exact compoundSlot_leads h hnull hgoto
      | c =>
        have hc : (compoundSlot .b first Q first).sref .c = (Q first).sref .c :=
          compoundSlot_sref (by decide)
        have hne : first + ((Q first).sref .c).jumpofs ≠ first := by
          intro heq
          rw [heq, hop] at hgoto
          exact absurd hgoto (by decide)
        have hmoved : MovedJumps P (compoundSlot .b first Q) := h.compoundSlot
        have hlead : Relation.TransGen (GoesTo P) (first + ((compoundSlot .b first Q first).sref .c).jumpofs) _ :=
          compoundSlot_leads hmoved (by rw [compoundSlot_op]; exact hnull)
            (by rw [hc, compoundSlot_of_ne hne]; exact hgoto)
        rwa [hc] at hlead
    · refine ih (h.compoundSlotA.compoundSlot.compoundSlot) (by omega) (by omega) fun j hj => ?_
      have hj' : j ≠ first := by omega
      rw [compoundSlot_of_ne hj', compoundSlot_of_ne hj', compoundSlotA_of_ne hj', hsame j (by omega)]

/-- A loop whose first statement checks against 3: the check is against 0 afterwards. -/
example : ((compoundJumps 0 4 fun i =>
    if i = 0 then ⟨.boundcheck, ⟨some 1, 0⟩, ⟨none, 3⟩, nullsref⟩
    else if i = 3 then ⟨.goto, ⟨none, -3⟩, nullsref, nullsref⟩
    else ⟨.other 0, nullsref, nullsref, nullsref⟩) 0).b.jumpofs = 0 := by
  decide

end Boundcheck

namespace Func

variable {f : Func} {i j : ℤ}

/-! ## The graph of a function -/

theorem graph_of_inside (h : f.Inside i) : f.graph i = (f.statements i).node i := if_pos h

theorem graph_out : f.graph i = .out ↔ ¬ f.Inside i := by
  rw [graph]
  split
  · next h =>
    simp only [h, not_true, iff_false]
    rw [Statement.node]
    split
    · simp
    split <;> simp
  · next h => simp [h]

theorem graph_goto (h : f.Inside i) (hop : (f.statements i).op = .goto) :
    f.graph i = .silent (i + (f.statements i).a.jumpofs) := by
  rw [graph_of_inside h, Statement.node, if_pos hop]

theorem graph_end (h : f.Inside i) (hop : (f.statements i).op.isEnd = true) :
    f.graph i = .stop (f.statements i) := by
  have hne : (f.statements i).op ≠ .goto := by
    intro hgoto
    rw [hgoto] at hop
    exact absurd hop (by decide)
  rw [graph_of_inside h, Statement.node, if_neg hne, if_pos hop]

theorem graph_step (h : f.Inside i) (hgoto : (f.statements i).op ≠ .goto) (hend : (f.statements i).op.isEnd = false) :
    f.graph i = .step (f.statements i).core ((f.statements i).next i) := by
  rw [graph_of_inside h, Statement.node, if_neg hgoto, if_neg (by simp [hend])]

/-- No execution leaves the function exactly if control cannot get outside. -/
theorem staysInside_iff : f.StaysInside ↔ ∀ i, f.Reach i → f.Inside i := by
  constructor
  · intro h i hi
    by_contra hout
    obtain ⟨ds, past, ht⟩ := FlowGraph.exists_trace_out hi (graph_out.2 hout)
    exact h _ _ _ _ ht (by simp)
  · intro h σ m s tr ht hmem
    obtain ⟨j, hj, hout⟩ := FlowGraph.exists_reach_out ht .entry hmem
    exact graph_out.1 hout (h j hj)

/-- Where control stays inside, a chain of `GOTO`s is a chain of the graph. -/
theorem leadsOrStays (hin : ∀ i, f.Reach i → f.Inside i) (hi : f.Reach i)
    (h : Relation.ReflTransGen (GoesTo f.statements) i j) : f.graph.LeadsOrStays i j := by
  induction h with
  | refl => exact .refl
  | tail _ hjump ih =>
    obtain ⟨hop, rfl⟩ := hjump
    have hreach := hi.of_leads ih
    exact .tail ih (graph_goto (hin _ hreach) hop)

/-- The function with moved jumps. -/
def withStatements (f : Func) (Q : Statements) : Func := { f with statements := Q }

variable {l : List Statement} {s : Statement} {Q : Statements} {B : ℤ}

@[simp] theorem withStatements_statements : (f.withStatements Q).statements = Q :=
  rfl

/-- The ways on from a statement are those from the moved one, moved. -/
theorem next_moved {P : Statements} {q : Statement} (h : Moved P i q) (taken : Bool) :
    Relation.ReflTransGen (GoesTo P) ((P i).next i taken) (q.next i taken) := by
  rw [Statement.next, Statement.next, h.op]
  cases hj : (P i).op.jump with
  | none => exact .refl
  | some slot =>
    simp only [Option.elim_some]
    split
    · exact h.moved slot (Opcode.typeIsNull_of_jump hj)
    · exact .refl

/-- Moved jumps thread the graph. -/
theorem threaded (hin : ∀ i, f.Reach i → f.Inside i) (h : MovedJumps f.statements Q) (hi : f.Reach i) :
    f.graph.Threaded (f.withStatements Q).graph i := by
  have hini := hin i hi
  have hinQ : (f.withStatements Q).Inside i := hini
  by_cases hgoto : (f.statements i).op = .goto
  · have hG := graph_goto hini hgoto
    have hreach : f.Reach (i + (f.statements i).a.jumpofs) := .silent hG hi
    rw [FlowGraph.Threaded, hG]
    rcases h i with hm | ⟨-, k, hto, hend, hk⟩
    · left
      have hnull : (f.statements i).op.typeIsNull .a = true := Opcode.typeIsNull_a.2 hgoto
      have hlead := leadsOrStays hin hreach (hm.moved .a hnull)
      exact ⟨_, graph_goto hinQ (hm.op.trans hgoto), .head' hG hlead⟩
    · right
      have hlead := leadsOrStays hin hreach hto
      have hink := hin k (hreach.of_leads hlead)
      have hQ := graph_end hinQ (by rw [withStatements_statements, hk]; exact hend)
      exact ⟨k, _, hQ, by rw [graph_end hink hend, withStatements_statements, hk], .head' hG hlead⟩
  have hm : Moved f.statements i (Q i) := (h i).resolve_right fun hended => hgoto hended.1
  cases hend : (f.statements i).op.isEnd with
  | true =>
    rw [FlowGraph.Threaded, graph_end hini hend]
    have heq := hm.eq fun slot => Opcode.typeIsNull_of_isEnd hend slot
    have hQ := graph_end hinQ (by rw [withStatements_statements, heq]; exact hend)
    rw [hQ, withStatements_statements, heq]
  | false =>
    have hG := graph_step hini hgoto hend
    have hQ := graph_step hinQ (by rw [withStatements_statements, hm.op]; exact hgoto)
      (by rw [withStatements_statements, hm.op]; exact hend)
    rw [FlowGraph.Threaded, hG]
    exact ⟨_, _, hQ, fun taken =>
      leadsOrStays hin (.step hG taken hi) (next_moved hm taken)⟩

/-- Where no limit of a reachable check points at a `GOTO`, what the statements do is unchanged. -/
theorem sameEvents_of_limitsClear (hin : ∀ i, f.Reach i → f.Inside i)
    (h : MovedJumps f.statements Q) (hclear : f.LimitsClear) :
    FlowGraph.SameEvents f.graph (f.withStatements Q).graph f.code := by
  intro i e e' next next' hi he he'
  have hini := hin i hi
  have hinQ : (f.withStatements Q).Inside i := hini
  rw [graph_of_inside hini] at he
  rw [graph_of_inside hinQ] at he'
  obtain ⟨hgoto, -, rfl, -⟩ := Statement.node_eq_step he
  obtain ⟨-, -, rfl, -⟩ := Statement.node_eq_step he'
  have hm : Moved f.statements i (Q i) := (h i).resolve_right fun hended => hgoto hended.1
  exact (hm.core fun hop => hm.eq_of_clear hop fun slot => hclear i slot hi hini hop).symm

/-- Where what the statements do is unchanged, so are the limits of the reachable checks. -/
theorem limits_eq_of_sameEvents (hin : ∀ i, f.Reach i → f.Inside i) (h : MovedJumps f.statements Q)
    (hev : FlowGraph.SameEvents f.graph (f.withStatements Q).graph f.code) (hi : f.Reach i)
    (hop : (f.statements i).op = .boundcheck) : Q i = f.statements i := by
  have hini := hin i hi
  have hinQ : (f.withStatements Q).Inside i := hini
  have hm : Moved f.statements i (Q i) := (h i).resolve_right fun hended => by
    exact absurd (hop.symm.trans hended.1) (by decide)
  have hopQ : (Q i).op = .boundcheck := hm.op.trans hop
  have hG := graph_step hini (by rw [hop]; decide) (by rw [hop]; rfl)
  have hH := graph_step hinQ (by rw [withStatements_statements, hopQ]; decide)
    (by rw [withStatements_statements, hopQ]; rfl)
  have hcore := hev _ _ _ _ _ hi hG hH
  rw [Statement.core, Statement.core, withStatements_statements, hop, hopQ] at hcore
  exact hcore.symm

/-! ## The end of a function -/

@[simp] theorem emit_code : (f.emit s).code = f.code := rfl

@[simp] theorem emit_numstatements :
    (f.emit s).numstatements = f.numstatements + 1 := by
  simp only [numstatements, emit]
  omega

theorem emit_last : (f.emit s).statements f.numstatements = s :=
  update_self ..

theorem emit_of_lt (h : i < f.numstatements) :
    (f.emit s).statements i = f.statements i :=
  update_of_ne (by omega) ..

theorem emit_endsWithReturn : (f.emit s).endsWithReturn = s.op.isEnd := by
  rw [endsWithReturn, emit_numstatements, show f.numstatements + 1 - 1 = f.numstatements by omega,
    emit_last]
  simp [emit]

@[simp] theorem emitAll_code : (f.emitAll l).code = f.code := by
  induction l generalizing f with
  | nil => rfl
  | cons s l ih => exact ih

theorem emitAll_numstatements :
    f.numstatements ≤ (f.emitAll l).numstatements := by
  induction l generalizing f with
  | nil => exact Int.le_refl _
  | cons s l ih =>
    have h : (f.emit s).numstatements ≤ (f.emitAll (s :: l)).numstatements := ih
    rw [emit_numstatements] at h
    omega

/-- The jumps of a function go to its statements up to `B`. -/
def TargetsTo (f : Func) (B : ℤ) : Prop :=
  ∀ i slot, f.Inside i → (f.statements i).op.jump = some slot →
    f.code ≤ i + ((f.statements i).sref slot).jumpofs ∧
      i + ((f.statements i).sref slot).jumpofs ≤ B

theorem TargetsTo.emit (h : f.TargetsTo B) (hs : s.op.jump = none) :
    (f.emit s).TargetsTo B := by
  intro i slot hi hj
  by_cases hlt : i < f.numstatements
  · rw [emit_of_lt hlt] at hj ⊢
    exact h i slot ⟨hi.1, hlt⟩ hj
  · have hi' : i < f.numstatements + 1 := by
      rw [← emit_numstatements (s := s)]
      exact hi.2
    obtain rfl : i = f.numstatements := by omega
    rw [emit_last, hs] at hj
    exact absurd hj (by simp)

theorem TargetsTo.emitAll (h : f.TargetsTo B) (hl : ∀ s ∈ l, s.op.jump = none) : (f.emitAll l).TargetsTo B := by
  induction l generalizing f with
  | nil => exact h
  | cons s l ih =>
    exact ih (h.emit (hl s (by simp))) fun t ht => hl t (by simp [ht])

theorem TargetsTo.mono {C : ℤ} (h : f.TargetsTo B) (hBC : B ≤ C) : f.TargetsTo C :=
  fun i slot hi hj => ⟨(h i slot hi hj).1, Int.le_trans (h i slot hi hj).2 hBC⟩

/-- Control stays inside a function that ends with a return, or gets to `B`. -/
theorem reach_inside (h : f.TargetsTo B) (hBn : B ≤ f.numstatements)
    (hend : f.endsWithReturn = true) (hi : f.Reach i) : f.Inside i ∨ i = B := by
  obtain ⟨hlen, hlast⟩ : f.length ≠ 0 ∧ (f.statements (f.numstatements - 1)).op.isEnd = true := by
    simpa [endsWithReturn] using hend
  have hto {j : ℤ} (hj : f.code ≤ j ∧ j ≤ B) : f.Inside j ∨ j = B := by
    by_cases hjB : j = B
    · exact .inr hjB
    · exact .inl ⟨hj.1, by omega⟩
  have hinside {i : ℤ} (hi : f.graph i ≠ .out) : f.Inside i := not_not.1 (mt graph_out.2 hi)
  induction hi with
  | entry =>
    left
    simp only [Inside, numstatements]
    omega
  | @silent i j hj hi ih =>
    have hini : f.Inside i := hinside (by simp [hj])
    rw [graph_of_inside hini] at hj
    obtain ⟨hop, rfl⟩ := Statement.node_eq_silent hj
    exact hto (h i .a hini (by rw [hop]; rfl))
  | @step i e next he taken hi ih =>
    have hini : f.Inside i := hinside (by simp [he])
    rw [graph_of_inside hini] at he
    obtain ⟨-, hne, -, rfl⟩ := Statement.node_eq_step he
    have hnext : f.Inside (i + 1) := by
      have : i ≠ f.numstatements - 1 := by
        rintro rfl
        rw [hlast] at hne
        exact absurd hne (by decide)
      simp only [Inside] at hini ⊢
      omega
    rw [Statement.next]
    cases hj : (f.statements i).op.jump with
    | none => exact .inl hnext
    | some slot =>
      simp only [Option.elim_some]
      split
      · exact hto (h i slot hini hj)
      · exact .inl hnext

theorem IsBody.targetsTo (h : f.IsBody) : f.TargetsTo f.numstatements := h.target

theorem IsBody.outs_jump (h : f.IsBody) : ∀ s ∈ f.outs, s.op.jump = none := by
  intro s hs
  obtain ⟨code, hop⟩ := h.outs s hs
  rw [hop]
  rfl

@[simp] theorem withReturn_code : f.withReturn.code = f.code := by
  rw [withReturn]
  split
  · rfl
  · rw [emit_code, emitAll_code]

theorem IsBody.withReturn_targetsTo (h : f.IsBody) :
    f.withReturn.TargetsTo f.withReturn.numstatements := by
  rw [withReturn]
  split
  · exact h.targetsTo
  · next returndef _ =>
    have hall := h.targetsTo.emitAll h.outs_jump
    have hret : (⟨.ret, returndef, nullsref, nullsref⟩ : Statement).op.jump = none := rfl
    refine (hall.emit hret).mono ?_
    have hle : f.numstatements ≤ (f.emitAll f.outs).numstatements := emitAll_numstatements
    rw [emit_numstatements]
    omega

@[simp] theorem emitAll_outs : (f.emitAll l).outs = f.outs := by
  induction l generalizing f with
  | nil => rfl
  | cons s l ih => exact ih

@[simp] theorem withReturn_outs : f.withReturn.outs = f.outs := by
  rw [withReturn]
  split
  · rfl
  · exact emitAll_outs

/-- A `DONE` is left out only if the body ends with a return and no jump to its end is found. -/
theorem withDone_cases (o : Bool) :
    (f.withDone o = f.withReturn ∧ o = true ∧ f.withReturn.endsWithReturn = true ∧
      ¬ funcJumpsTo f.withReturn.statements f.code f.withReturn.length
        f.withReturn.numstatements = true) ∨
    f.EndCovered o ∧ ∃ l, (∀ s ∈ l, s ∈ f.outs) ∧
      f.withDone o = (f.withReturn.emitAll l).emit ⟨.done, nullsref, nullsref, nullsref⟩ := by
  by_cases hneeds : f.withReturn.needsdone o = true
  · refine .inr ⟨fun ho hend => .inl ?_, f.withReturn.outs, by simp, by simp [withDone, hneeds]⟩
    simpa [needsdone, ho, hend] using hneeds
  cases o with
  | false => exact .inr ⟨by simp [EndCovered], [], by simp, by simp [withDone, hneeds, emitAll]⟩
  | true =>
    left
    have hdone : f.withDone true = f.withReturn := by simp [withDone, hneeds]
    rw [needsdone] at hneeds
    cases hend : f.withReturn.endsWithReturn with
    | false => simp [hend] at hneeds
    | true => exact ⟨hdone, rfl, rfl, by simpa [hend] using hneeds⟩

/-- A function with its `DONE` keeps control inside exactly if the end is covered. -/
theorem withDone_inside_iff (h : f.IsBody) (o : Bool) :
    (∀ i, (f.withDone o).Reach i → (f.withDone o).Inside i) ↔ f.EndCovered o := by
  rcases f.withDone_cases o with ⟨hdone, ho, hend, hjumps⟩ | ⟨hcov, l, hl, hdone⟩
  · rw [hdone]
    constructor
    · intro hin _ _
      exact .inr fun hreach => by simpa [Inside] using hin _ hreach
    · intro hcov i hi
      have hnot := (hcov ho hend).resolve_left hjumps
      rcases reach_inside h.withReturn_targetsTo (Int.le_refl _) hend hi with hini | rfl
      · exact hini
      · exact absurd hi hnot
  · have hjump : ∀ s ∈ l, s.op.jump = none := fun s hs => h.outs_jump s (hl s hs)
    have hle : f.withReturn.numstatements ≤ (f.withReturn.emitAll l).numstatements :=
      emitAll_numstatements
    have htarget : ((f.withReturn.emitAll l).emit ⟨.done, nullsref, nullsref, nullsref⟩).TargetsTo
        f.withReturn.numstatements :=
      (h.withReturn_targetsTo.emitAll hjump).emit rfl
    have hin : ∀ i, (f.withDone o).Reach i → (f.withDone o).Inside i := by
      intro i hi
      rw [hdone] at hi ⊢
      rcases reach_inside htarget (by rw [emit_numstatements]; omega) emit_endsWithReturn hi with
        hini | rfl
      · exact hini
      · refine ⟨?_, by rw [emit_numstatements]; omega⟩
        rw [emit_code, emitAll_code, numstatements]
        omega
    exact ⟨fun _ => hcov, fun _ => hin⟩

/-- The limits of the bound checks are not negative, and point at no `GOTO` of a cycle. -/
def LimitsPlain (f : Func) : Prop :=
  ∀ i slot, f.Inside i → (f.statements i).op = .boundcheck → slot ≠ .a →
    0 ≤ ((f.statements i).sref slot).jumpofs ∧
      ¬ Relation.TransGen (GoesTo f.statements) (i + ((f.statements i).sref slot).jumpofs)
        (i + ((f.statements i).sref slot).jumpofs)

/-! ## What the two do -/

theorem SameStatements.staysInside {g : Func} (h : f.SameStatements g) :
    f.StaysInside ↔ g.StaysInside :=
  ⟨fun hf σ m s tr ht => hf σ m s tr ((h σ m s tr).2 ht),
    fun hg σ m s tr ht => hg σ m s tr ((h σ m s tr).1 ht)⟩

/-- Where control stays inside a function, moved jumps leave its statements as they are if the
limits that control gets to point at no `GOTO`. -/
theorem sameStatements_compound (hin : ∀ i, f.Reach i → f.Inside i) (hclear : f.LimitsClear) :
    f.SameStatements f.compound := by
  intro σ m s tr
  have hmoved : MovedJumps f.statements (compoundJumps f.code f.length f.statements) :=
    (MovedJumps.refl _).compoundJumps
  exact FlowGraph.trace_iff_of_threaded (fun i hi => threaded hin hmoved hi)
    (sameEvents_of_limitsClear hin hmoved hclear)

theorem limitsClear_of_sameStatements (hin : ∀ i, f.Reach i → f.Inside i) (hplain : f.LimitsPlain)
    (hsame : f.SameStatements f.compound) : f.LimitsClear := by
  intro i slot hi hini hop hs hgoto
  have hmoved : MovedJumps f.statements (compoundJumps f.code f.length f.statements) :=
    (MovedJumps.refl _).compoundJumps
  have hev : FlowGraph.SameEvents f.graph f.compound.graph f.code :=
    FlowGraph.sameEvents_of_trace (fun i hi => threaded hin hmoved hi)
      fun ds tr => (hsame _ _ _ _).1
  have heq := limits_eq_of_sameEvents hin hmoved hev hi hop
  obtain ⟨hofs, hcycle⟩ := hplain i slot hini hop hs
  have hlead := compoundJumps_leads (.refl f.statements) hini.1 hini.2 (fun _ _ => rfl) hop hs hofs
    hgoto
  rw [heq] at hlead
  exact hcycle hlead

end Func

/-- A finalised function keeps control inside until it ends, and its jumps lead to the same
statements as before they were moved, if its end is covered and its bound checks are clear of
`GOTO`s; and only then, as far as its limits are plain. -/
theorem finalise_preserves (f : Func) (h : f.IsBody) (o c : Bool) :
    (f.EndCovered o ∧ (c → (f.withDone o).LimitsClear) →
      (f.finalise o c).StaysInside ∧ (f.withDone o).SameStatements (f.finalise o c)) ∧
    ((f.withDone o).LimitsPlain →
      (f.finalise o c).StaysInside ∧ (f.withDone o).SameStatements (f.finalise o c) →
      f.EndCovered o ∧ (c → (f.withDone o).LimitsClear)) := by
  rw [← Func.withDone_inside_iff h o, ← Func.staysInside_iff]
  cases c with
  | false =>
    have hsame : (f.withDone o).SameStatements (f.finalise o false) := fun _ _ _ _ => Iff.rfl
    exact ⟨fun hcond => ⟨hcond.1, hsame⟩, fun _ hres => ⟨hres.1, by simp⟩⟩
  | true =>
    constructor
    · rintro ⟨hstays, hclear⟩
      have hsame := Func.sameStatements_compound (Func.staysInside_iff.1 hstays) (hclear rfl)
      exact ⟨hsame.staysInside.1 hstays, hsame⟩
    · rintro hplain ⟨hstays, hsame⟩
      have hbefore := hsame.staysInside.2 hstays
      exact ⟨hbefore, fun _ =>
        Func.limitsClear_of_sameStatements (Func.staysInside_iff.1 hbefore) hplain hsame⟩

/-- `if (x) return;`, nothing behind it in the table. -/
def ifReturn : Func where
  statements i := if i = 0 then ⟨.ifnotI, ⟨some 1, 0⟩, ⟨none, 2⟩, nullsref⟩
    else ⟨.ret, nullsref, nullsref, nullsref⟩
  code := 0
  length := 2
  returndef := none
  outs := []

theorem ifReturn_isBody : ifReturn.IsBody := by
  refine ⟨fun i slot hi hj => ?_, by simp [ifReturn]⟩
  obtain rfl | rfl : i = 0 ∨ i = 1 := by
    simp only [Func.Inside, Func.numstatements, ifReturn] at hi
    omega
  · obtain rfl : Slot.b = slot := Option.some.inj hj
    decide
  · exact absurd hj (Option.some_ne_none slot).symm

theorem finalise_preserves_ifReturn :
    (ifReturn.EndCovered false ∧ (true → (ifReturn.withDone false).LimitsClear) →
      (ifReturn.finalise false true).StaysInside ∧
        (ifReturn.withDone false).SameStatements (ifReturn.finalise false true)) ∧
    ((ifReturn.withDone false).LimitsPlain →
      (ifReturn.finalise false true).StaysInside ∧
        (ifReturn.withDone false).SameStatements (ifReturn.finalise false true) →
      ifReturn.EndCovered false ∧ (true → (ifReturn.withDone false).LimitsClear)) :=
  finalise_preserves ifReturn ifReturn_isBody false true

/-- Nothing follows the `RETURN`, and the jump to the end is the first statement, which
`QCC_FuncJumpsTo` does not count. -/
theorem finalise_leaves : ¬ ∀ f : Func, f.IsBody → ∀ o c, (f.finalise o c).StaysInside ∧
    (f.withDone o).SameStatements (f.finalise o c) := by
  intro h
  have hstays := (h ifReturn ifReturn_isBody true false).1
  have hdone : ifReturn.finalise true false = ifReturn := rfl
  rw [hdone, Func.staysInside_iff] at hstays
  have hstep := Func.graph_step (f := ifReturn) (i := 0) (by decide) (by decide) rfl
  have hreach : ifReturn.Reach 2 := .step hstep true .entry
  exact absurd (hstays 2 hreach) (by decide)

end Qcc

end FteQuake
