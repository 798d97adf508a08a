import Mathlib.Data.BitVec

/-!
# Integer arithmetic of the machine

The opcodes of `execloop.h` that compute an integer from integers. An operand is two words of the globals, of which
the 32-bit opcodes use the first. What a division does on a divisor for which C has no quotient is `none`: the
processor faults.

The 32-bit divisions and the constant folding of `QCC_PR_StatementFlags` check their divisors and answer alike
(`guardedDiv`, `guardedUDiv`). The 64-bit divisions do not check.
-/

namespace FteQuake

namespace IntegerOps

/-! ## Operators of C -/

section Operators

variable {w : ℕ}

/-- `a / b` of signed operands. -/
def sdivC (a b : BitVec w) : Option (BitVec w) :=
  if b = 0 ∨ a = BitVec.intMin w ∧ b = -1 then none else some (a.sdiv b)

/-- `a / b` of unsigned operands. -/
def udivC (a b : BitVec w) : Option (BitVec w) := if b = 0 then none else some (a / b)

/-- `a << n`. The processor takes the count modulo the width. -/
def shl (a : BitVec w) (n : BitVec 32) : BitVec w := a <<< (n.toNat % w)

/-- `a >> n`, `a` unsigned or not negative. -/
def shr (a : BitVec w) (n : BitVec 32) : BitVec w := a >>> (n.toNat % w)

/-- `A_RSHIFT_I`. -/
def aRshiftI (x : BitVec w) (y : BitVec 32) : BitVec w := if x.slt 0 then ~~~(shr (~~~x) y) else shr x y

end Operators

/-! ## The opcodes -/

inductive Op
  | addI
  | subI
  | mulI
  | divI
  | divU
  | bitandI
  | bitorI
  | bitxorI
  | rshiftI
  | rshiftU
  | lshiftI
  | addI64
  | subI64
  | mulI64
  | divI64
  | bitandI64
  | bitorI64
  | bitxorI64
  | lshiftI64I
  | rshiftI64I
  | divU64
  | rshiftU64I
  | bitextendI
  | bitextendU
  | bitcopyI
  deriving DecidableEq

/-- Two words, the first of which is the low one. -/
abbrev Eval := BitVec 64

/-- `_int` and `_uint`. -/
def Eval.int (v : Eval) : BitVec 32 := v.setWidth 32

/-- A store to `_int` or `_uint`, which leaves the second word. -/
def Eval.setInt (v : Eval) (n : BitVec 32) : Eval := v.extractLsb' 32 32 ++ n

/-- What `OP_BITEXTEND_I` and `OP_BITEXTEND_U` shift by: up, and down. -/
def extendUp (b : BitVec 32) : BitVec 32 := 32 - (b &&& 0xff) - b >>> 8

@[inherit_doc extendUp]
def extendDown (b : BitVec 32) : BitVec 32 := 32 - (b &&& 0xff)

/-- The bits that `OP_BITCOPY_I` copies. -/
def copyMask (b : BitVec 32) : BitVec 32 := shl 1 (b &&& 0xff) - 1

/-- An opcode on the operands `OPA`, `OPB` and `OPC`: what it leaves in `OPC`. -/
def Op.exec (op : Op) (a b c : Eval) : Option Eval :=
  match op with
  | addI => some (c.setInt (a.int + b.int))
  | subI => some (c.setInt (a.int - b.int))
  | mulI => some (c.setInt (a.int * b.int))
  | divI =>
    if b.int = 0 then some (c.setInt 0)
    else if b.int = -1 ∧ a.int = 0x80000000 then some (c.setInt 0x7fffffff)
    else (sdivC a.int b.int).map c.setInt
  | divU => if b.int = 0 then some (c.setInt 0) else (udivC a.int b.int).map c.setInt
  | bitandI => some (c.setInt (a.int &&& b.int))
  | bitorI => some (c.setInt (a.int ||| b.int))
  | bitxorI => some (c.setInt (a.int ^^^ b.int))
  | rshiftI => some (c.setInt (aRshiftI a.int b.int))
  | rshiftU => some (c.setInt (shr a.int b.int))
  | lshiftI => some (c.setInt (shl a.int b.int))
  | addI64 => some (a + b)
  | subI64 => some (a - b)
  | mulI64 => some (a * b)
  | divI64 => sdivC a b
  | bitandI64 => some (a &&& b)
  | bitorI64 => some (a ||| b)
  | bitxorI64 => some (a ^^^ b)
  | lshiftI64I => some (shl a b.int)
  | rshiftI64I => some (aRshiftI a b.int)
  | divU64 => udivC a b
  | rshiftU64I => some (shr a b.int)
  | bitextendI => some (c.setInt (aRshiftI (shl a.int (extendUp b.int)) (extendDown b.int)))
  | bitextendU => some (c.setInt (shr (shl a.int (extendUp b.int)) (extendDown b.int)))
  | bitcopyI =>
    let i := copyMask b.int
    some (c.setInt (c.int &&& ~~~shl i (b.int >>> 8) ||| shl (a.int &&& i) (b.int >>> 8)))

/-- What `QCC_PR_StatementFlags` makes of an `OP_DIV_I64` of constants. -/
def foldDivI64 (a b : BitVec 64) : Option (BitVec 64) :=
  if b = 0 then some 0 else if b = -1 ∧ a = BitVec.intMin 64 then some (BitVec.intMax 64) else sdivC a b

/-- What `QCC_PR_StatementFlags` makes of an `OP_DIV_U64` of constants. -/
def foldDivU64 (a b : BitVec 64) : Option (BitVec 64) := if b = 0 then some 0 else udivC a b

/-! ## Divisions that are checked -/

section Guarded

variable {w : ℕ}

/-- A signed division that answers for all operands. -/
def guardedDiv (a b : BitVec w) : BitVec w :=
  if b = 0 then 0 else if b = -1 ∧ a = BitVec.intMin w then BitVec.intMax w else a.sdiv b

/-- An unsigned division that answers for all operands. -/
def guardedUDiv (a b : BitVec w) : BitVec w := if b = 0 then 0 else a / b

theorem sdivC_eq_none {a b : BitVec w} : sdivC a b = none ↔ b = 0 ∨ a = BitVec.intMin w ∧ b = -1 := by
  rw [sdivC]
  split <;> simp_all only [reduceCtorEq]

theorem udivC_eq_none {a b : BitVec w} : udivC a b = none ↔ b = 0 := by
  rw [udivC]
  split <;> simp_all only [reduceCtorEq]

/-- Behind the checks, the quotient is there. -/
theorem guardedDiv_of_sdivC {a b q : BitVec w} (h : sdivC a b = some q) : guardedDiv a b = q := by
  have hb : ¬(b = 0 ∨ a = BitVec.intMin w ∧ b = -1) := fun hb => by
    rw [sdivC_eq_none.mpr hb] at h
    cases h
  obtain ⟨hzero, hmin⟩ := not_or.mp hb
  rw [sdivC, if_neg hb] at h
  rw [guardedDiv, if_neg hzero, if_neg fun hm => hmin hm.symm, Option.some.inj h]

theorem guardedUDiv_of_udivC {a b q : BitVec w} (h : udivC a b = some q) : guardedUDiv a b = q := by
  have hb : b ≠ 0 := fun hb => by
    rw [udivC_eq_none.mpr hb] at h
    cases h
  rw [udivC, if_neg hb] at h
  rw [guardedUDiv, if_neg hb, Option.some.inj h]

/-- The checks of a signed division. -/
theorem checked_sdivC (a b : BitVec w) :
    (if b = 0 then some 0 else if b = -1 ∧ a = BitVec.intMin w then some (BitVec.intMax w) else sdivC a b) =
      some (guardedDiv a b) := by
  rw [guardedDiv]
  by_cases hzero : b = 0
  · rw [if_pos hzero, if_pos hzero]
  · by_cases hmin : b = -1 ∧ a = BitVec.intMin w
    · rw [if_neg hzero, if_neg hzero, if_pos hmin, if_pos hmin]
    · rw [if_neg hzero, if_neg hzero, if_neg hmin, if_neg hmin, sdivC,
        if_neg (not_or.mpr ⟨hzero, fun hm => hmin hm.symm⟩)]

end Guarded

/-- The 32-bit division is checked. -/
theorem exec_divI (a b c : Eval) : Op.divI.exec a b c = some (c.setInt (guardedDiv a.int b.int)) := by
  have hchecked := congrArg (Option.map c.setInt) (checked_sdivC a.int b.int)
  rw [apply_ite (Option.map c.setInt), apply_ite (Option.map c.setInt)] at hchecked
  exact hchecked

theorem exec_divU (a b c : Eval) : Op.divU.exec a b c = some (c.setInt (guardedUDiv a.int b.int)) := by
  rw [Op.exec, guardedUDiv, udivC]
  split <;> rfl

/-- The constant folding of the 64-bit division is checked like the 32-bit division. -/
theorem foldDivI64_eq (a b : BitVec 64) : foldDivI64 a b = some (guardedDiv a b) := checked_sdivC a b

theorem foldDivU64_eq (a b : BitVec 64) : foldDivU64 a b = some (guardedUDiv a b) := by
  rw [foldDivU64, guardedUDiv, udivC]
  split <;> rfl

/-- An opcode completes, and a 64-bit division by 0 or -1 gives what the constant folding gives, by the checks of
the 32-bit divisions. -/
structure Defined (op : Op) (a b c : Eval) : Prop where
  completes : (op.exec a b c).isSome
  signed : op = .divI64 → b = 0 ∨ b = -1 → op.exec a b c = some (guardedDiv a b) ∧ foldDivI64 a b = some (guardedDiv a b)
  unsigned : op = .divU64 → b = 0 ∨ b = -1 →
    op.exec a b c = some (guardedUDiv a b) ∧ foldDivU64 a b = some (guardedUDiv a b)

/-- The operands for which a 64-bit division has no quotient. -/
def Faults (op : Op) (a b : Eval) : Prop :=
  op = .divI64 ∧ (b = 0 ∨ a = BitVec.intMin 64 ∧ b = -1) ∨ op = .divU64 ∧ b = 0

/-- Only the 64-bit divisions do not complete. -/
theorem exec_eq_none_iff (op : Op) (a b c : Eval) : op.exec a b c = none ↔ Faults op a b := by
  cases op with
  | divI64 => simp [Faults, Op.exec, sdivC_eq_none]
  | divU64 => simp [Faults, Op.exec, udivC_eq_none]
  | divI => simp [Faults, exec_divI]
  | divU => simp [Faults, exec_divU]
  | _ => simp [Faults, Op.exec]

/-- **An opcode completes with the answers of the constant folding, except a 64-bit division by 0, and a signed
one of the least integer by -1.** -/
theorem exec_defined_iff (op : Op) (a b c : Eval) : Defined op a b c ↔ ¬Faults op a b := by
  constructor
  · intro hdefined hfaults
    have hcompletes := hdefined.completes
    rw [(exec_eq_none_iff op a b c).mpr hfaults] at hcompletes
    cases hcompletes
  · intro hfaults
    obtain ⟨v, hv⟩ := Option.ne_none_iff_exists'.mp (mt (exec_eq_none_iff op a b c).mp hfaults)
    refine ⟨by rw [hv]; rfl, ?_, ?_⟩
    · rintro rfl -
      rw [hv, guardedDiv_of_sdivC hv]
      exact ⟨rfl, (foldDivI64_eq a b).trans (by rw [guardedDiv_of_sdivC hv])⟩
    · rintro rfl -
      rw [hv, guardedUDiv_of_udivC hv]
      exact ⟨rfl, (foldDivU64_eq a b).trans (by rw [guardedUDiv_of_udivC hv])⟩

/-- A 64-bit division by 0 faults, and so does a signed one of the least integer by -1; constants are folded. -/
theorem exec_undefined : ¬Defined .divI64 1 0 0 ∧ ¬Defined .divI64 (BitVec.intMin 64) (-1) 0 ∧ ¬Defined .divU64 1 0 0 ∧
    foldDivI64 1 0 = some 0 ∧ foldDivI64 (BitVec.intMin 64) (-1) = some (BitVec.intMax 64) ∧ foldDivU64 1 0 = some 0 :=
  ⟨fun h => absurd h.completes (by decide), fun h => absurd h.completes (by decide),
    fun h => absurd h.completes (by decide), rfl, rfl, rfl⟩

end IntegerOps

end FteQuake
