import FteQuake.Common.Infobuf
import FteQuake.Lib.BoundedMemory
import Mathlib.Data.BitVec

/-!
# The macros of a token

The end of `COM_StringParse` of `common.c`, which puts the strings of cvars in place of their names in a
token, in the buffer of the token itself. `c` counts the characters and `s` is where the loop is. Behind
a string that was put in, `s` has gone on by its length and `c` has not, so that the loop then looks at
as many bytes behind the token as the string has, and moves too many at a second one. It also leaves out
the character behind the string, which is the `$` of the next name.

A read or a store outside the buffer fails, and so does `memmove` with a negative count.
-/

namespace FteQuake

open List Option Nat

namespace StringParse

open Mem

/-! ## The code -/

section Code

variable (cap : ℕ) (token : Mem QByte)

def readCell (p : ℕ) : Option QByte := if p < cap then some (token p) else none

/-- The source of `memmove`. -/
def readCells (p n : ℕ) : Option (List QByte) := if n = 0 ∨ p + n ≤ cap then some (token.slice p n) else none

/-- A character that does not end a name. -/
def isNameByte (c : QByte) : Bool := 32 < c && c ≠ 36

/-- `sizeof(name) - 1`. -/
def nameMax : ℕ := 63

/-- The name at a place, of at most `n` characters. -/
def readName : (n p : ℕ) → Option (List QByte)
  | 0, _ => some []
  | n + 1, p => (readCell cap token p).bind fun c =>
    if isNameByte c then (readName n (p + 1)).map (c :: ·) else some []

/-- `memmove` of what is behind a name of `i` characters, and `memcpy` of the string. -/
def moveValue (value : List QByte) (c s len i : ℕ) : Option (Mem QByte) :=
  if len < c + i then none
  else (readCells cap token (s + i + 1) (len - c - i)).bind fun behind =>
    (token.puts cap (s + value.length) behind).bind fun token => token.puts cap s value

/-- The test of the new length; it wraps where that is negative. -/
def givesUp (value : List QByte) (len i : ℕ) : Prop :=
  len + value.length < i + 1 ∨ cap - 1 ≤ len + value.length - (i + 1)

instance (value : List QByte) (len i : ℕ) : Decidable (givesUp cap value len i) := inferInstanceAs (Decidable (_ ∨ _))

/-- The loop, in at most `n` rounds. `find` is `Cvar_FindVar` with the string of the cvar. -/
def macroLoop (find : List QByte → Option CString) : (n c s len : ℕ) → Mem QByte → Option (Mem QByte)
  | 0, _, _, _, _ => none
  | n + 1, c, s, len, token =>
    if len ≤ c then some token
    else (readCell cap token s).bind fun ch =>
      if ch = 36 then (readName cap token nameMax (s + 1)).bind fun name =>
        match find name with
        | none => macroLoop find n (c + 1) (s + 1) len token
        | some value =>
          if givesUp cap value.1 len name.length then token.put cap len 0
          else (moveValue cap token value.1 c s len name.length).bind fun token =>
            macroLoop find n (c + 1) (s + value.1.length + 1) (len + value.1.length - (name.length + 1)) token
      else macroLoop find n (c + 1) (s + 1) len token

end Code

/-! ## What a token stands for -/

/-- The name at the begin of a text. -/
def nameOf (s : List QByte) : List QByte := (s.takeWhile isNameByte).take nameMax

/-- A token with the strings of its names, in one pass. -/
def expand (find : List QByte → Option CString) : List QByte → List QByte
  | [] => []
  | c :: s =>
    if c = 36 then
      match find (nameOf s) with
      | some value => value.1 ++ expand find (s.drop (nameOf s).length)
      | none => c :: expand find s
    else c :: expand find s
termination_by s => s.length
decreasing_by
  · rw [List.length_drop, List.length_cons]
    omega
  · exact Nat.lt_succ_self _
  · exact Nat.lt_succ_self _

/-- No name of a text has a string. -/
def Plain (find : List QByte → Option CString) : List QByte → Prop
  | [] => True
  | c :: s => (c = 36 → find (nameOf s) = none) ∧ Plain find s

section Expand

variable {find : List QByte → Option CString} {s t : List QByte} {value : CString}

theorem nameOf_append (h : t.head?.all fun c => !isNameByte c) : nameOf (s ++ t) = nameOf s := by
  rw [nameOf, nameOf]
  congr 1
  induction s with
  | nil =>
    cases t with
    | nil => rfl
    | cons c t =>
      have hc : isNameByte c = false := by simpa using h
      rw [nil_append, takeWhile_cons_of_neg (by rw [hc]; exact Bool.false_ne_true), takeWhile_nil]
  | cons c s ih =>
    rw [cons_append, takeWhile_cons, takeWhile_cons, ih]

/-- A token without a name that has a string stands for itself. -/
theorem Plain.expand_eq (h : Plain find s) : expand find s = s := by
  induction s with
  | nil => rw [expand]
  | cons c s ih =>
    rw [expand, ih h.2]
    split
    · rw [h.1 ‹_›]
    · rfl

/-- Up to the first name that has a string, a token stands for itself. -/
theorem expand_append (h : Plain find s) (t : List QByte) : expand find (s ++ 36 :: t) = s ++ expand find (36 :: t) := by
  induction s with
  | nil => rfl
  | cons c s ih =>
    have hname : nameOf (s ++ 36 :: t) = nameOf s := nameOf_append rfl
    rw [cons_append, expand, ih h.2, hname]
    split
    · rw [h.1 ‹_›]
      rfl
    · rfl

theorem expand_name (h : find (nameOf s) = some value) :
    expand find (36 :: s) = value.1 ++ expand find (s.drop (nameOf s).length) := by
  rw [expand, if_pos rfl, h]

end Expand

/-! ## The loop over a token -/

section Loop

variable {cap : ℕ} {token : Mem QByte} {find : List QByte → Option CString} {u s t pre : List QByte}

/-- The end of a string, and its terminator. -/
theorem Holds.drop {p : ℕ} (h : token.Holds p u) {k : ℕ} (hk : k ≤ u.length) : token.Holds (p + k) (u.drop k) where
  zero_notMem hmem := h.zero_notMem (mem_of_mem_drop hmem)
  slice := by
    have hslice := congrArg (List.drop k) h.slice
    rw [drop_slice, drop_append_of_le_length hk] at hslice
    rw [length_drop, ← hslice, succ_sub hk]

theorem Holds.head {p : ℕ} {c : QByte} (h : token.Holds p (c :: u)) : token p = c := h.apply_of_lt (i := 0) (succ_pos _)

/-- The name that is read in a string is the one at its begin. -/
theorem readName_eq {p : ℕ} (h : token.Holds p u) (hcap : p + u.length < cap) (n : ℕ) :
    readName cap token n p = some ((u.takeWhile isNameByte).take n) := by
  induction n generalizing u p with
  | zero => rfl
  | succ n ih =>
    rw [readName, readCell, if_pos (lt_of_le_of_lt (le_add_right _ _) hcap), bind_some]
    cases u with
    | nil =>
      rw [show token p = 0 from h.apply_length, if_neg (by decide)]
      rfl
    | cons c u =>
      have htail : token.Holds (p + 1) u := Holds.drop h (k := 1) (succ_le_succ (zero_le _))
      rw [length_cons] at hcap
      rw [Holds.head h, ih htail (by omega), takeWhile_cons]
      split <;> rfl

/-- At a place the loop goes on without a change. -/
def Passes (cap : ℕ) (token : Mem QByte) (find : List QByte → Option CString) (p : ℕ) : Prop :=
  p < cap ∧ (token p = 36 → ∃ name, readName cap token nameMax (p + 1) = some name ∧ find name = none)

theorem macroLoop_pass {n c p len : ℕ} (h : Passes cap token find p) (hc : c < len) :
    macroLoop cap find (n + 1) c p len token = macroLoop cap find n (c + 1) (p + 1) len token := by
  obtain ⟨hp, hname⟩ := h
  rw [macroLoop, if_neg (not_le.mpr hc), readCell, if_pos hp, bind_some]
  split
  · obtain ⟨name, hread, hnone⟩ := hname ‹_›
    rw [hread, bind_some]
    simp only [hnone]
  · rfl

theorem macroLoop_passes {n c p len : ℕ} (k : ℕ) (h : ∀ j < k, Passes cap token find (p + j)) (hc : c + k ≤ len) :
    macroLoop cap find (n + k) c p len token = macroLoop cap find n (c + k) (p + k) len token := by
  induction k generalizing c p with
  | zero => rfl
  | succ k ih =>
    have hrest : ∀ j < k, Passes cap token find (p + 1 + j) := fun j hj => by
      rw [add_assoc, add_comm 1]
      exact h (j + 1) (succ_lt_succ hj)
    have hfirst : Passes cap token find p := h 0 (succ_pos k)
    rw [← add_assoc, macroLoop_pass hfirst (by omega), ih hrest (by omega), add_right_comm c 1 k,
      add_right_comm p 1 k]
    rfl

/-- In a part of a token without a name that has a string, up to the end or to another name, the loop passes. -/
theorem passes_of_plain {p : ℕ} (hholds : token.Holds p (s ++ t)) (hcap : p + (s ++ t).length < cap) (h : Plain find s)
    (ht : t.head?.all fun c => !isNameByte c) {j : ℕ} (hj : j < s.length) : Passes cap token find (p + j) := by
  induction s generalizing p j with
  | nil => exact absurd hj (not_lt_zero _)
  | cons c s ih =>
    have htail : token.Holds (p + 1) (s ++ t) := Holds.drop hholds (k := 1) (succ_le_succ (zero_le _))
    rw [cons_append, length_cons] at hcap
    cases j with
    | zero =>
      refine ⟨by omega, fun hdollar => ⟨nameOf s, ?_, h.1 ((Holds.head hholds).symm.trans hdollar)⟩⟩
      rw [add_zero, readName_eq htail (by omega), ← nameOf_append ht, nameOf]
    | succ j =>
      rw [add_comm j, ← add_assoc]
      exact ih htail (by omega) h.2 (lt_of_succ_lt_succ hj)

/-- A token none of whose names has a string stays as it is. -/
theorem macroLoop_plain (hholds : token.Holds 0 u) (hcap : u.length < cap) (h : Plain find u) :
    macroLoop cap find (cap + 1) 0 0 u.length token = some token := by
  obtain ⟨r, rfl⟩ := Nat.exists_eq_add_of_lt hcap
  rw [← append_nil u] at hholds
  have hpasses : ∀ j < u.length, Passes (u.length + r + 1) token find (0 + j) := fun j hj =>
    passes_of_plain hholds (by rw [append_nil]; omega) h rfl hj
  rw [show u.length + r + 1 + 1 = r + 1 + 1 + u.length by omega, macroLoop_passes _ hpasses (zero_add _).le,
    macroLoop, if_pos (zero_add _).ge]

theorem nameOf_append_drop (s : List QByte) : nameOf s ++ s.drop (nameOf s).length = s :=
  prefix_iff_eq_append.mp (( take_prefix _ _).trans ( takeWhile_prefix _))

/-- What is behind a name is moved, and the string put between, where both fit. -/
theorem moveValue_eq {name v rest : List QByte} (hholds : token.Holds 0 (pre ++ 36 :: (name ++ rest)))
    (hv : 0 ∉ v) (hcap : (pre ++ 36 :: (name ++ rest)).length < cap) (hfit : (pre ++ v ++ rest).length < cap) :
    ∃ token', moveValue cap token v pre.length pre.length (pre ++ 36 :: (name ++ rest)).length name.length = some token' ∧
      token'.Holds 0 (pre ++ v ++ rest) ∧ ∀ j, (pre ++ v ++ rest).length < j → token' j = token j := by
  have hlength : (pre ++ 36 :: (name ++ rest)).length = pre.length + name.length + 1 + rest.length := by
    rw [length_append, length_cons, length_append]
    omega
  have hsum : (pre ++ v ++ rest).length = pre.length + v.length + rest.length := by
    rw [length_append, length_append]
  have hpre : token.slice 0 pre.length = pre := by
    have hchars := hholds.chars
    rw [length_append, slice_add] at hchars
    exact (append_inj hchars (length_slice _ _ _)).1
  have hrest : token.slice (pre.length + name.length + 1) (rest.length + 1) = rest ++ [0] := by
    have hdrop := (Holds.drop hholds (k := pre.length + name.length + 1) (by omega)).slice
    have heq : (pre ++ 36 :: (name ++ rest)).drop (pre.length + name.length + 1) = rest := by
      rw [add_assoc, drop_length_add_append, drop_succ_cons, drop_left]
    rwa [heq, zero_add] at hdrop
  have hbehind : rest.length + 1 = (rest ++ [0]).length := by rw [length_append, length_singleton]
  refine ⟨(token.blit (pre.length + v.length) (rest ++ [0])).blit pre.length v, ?_, ⟨?_, ?_⟩, fun j hj => ?_⟩
  · rw [moveValue, if_neg (by omega), readCells,
      show (pre ++ 36 :: (name ++ rest)).length - pre.length - name.length = rest.length + 1 by omega,
      if_pos (.inr (by omega)), bind_some, hrest, puts_of_le (by omega), bind_some, puts_of_le (by omega)]
  · have hzero := hholds.zero_notMem
    simp only [mem_append, mem_cons, not_or] at hzero ⊢
    exact ⟨⟨hzero.1, hv⟩, hzero.2.2.2⟩
  · rw [hsum, add_assoc, add_assoc, slice_add, slice_add, zero_add, slice_blit_self,
      slice_blit_before _ _ (zero_add _).le, slice_blit_before _ _ (by omega), hpre, slice_blit_after _ _ le_rfl,
      hbehind, slice_blit_self, append_assoc, append_assoc]
  · rw [blit_apply_ge _ _ (by omega), blit_apply_ge _ _ (by omega)]

/-- One name of a token has a string. -/
structure Single (find : List QByte → Option CString) (u pre s : List QByte) (value : CString) : Prop where
  eq : u = pre ++ 36 :: s
  before : Plain find pre
  found : find (nameOf s) = some value
  behind : Plain find (s.drop (nameOf s).length)

theorem Single.expand_eq {value : CString} (h : Single find u pre s value) :
    expand find u = pre ++ value.1 ++ s.drop (nameOf s).length := by
  rw [h.eq, expand_append h.before, expand_name h.found, h.behind.expand_eq, append_assoc]

/-- None of the bytes that the loop looks at behind an expanded token is outside the buffer, or a `$`. -/
def StaleClear (cap : ℕ) (token : Mem QByte) (expanded value : List QByte) : Prop :=
  ∀ j, expanded.length < j → j < expanded.length + value.length → j < cap ∧ token j ≠ 36

/-- Behind the string that was put in, the loop passes up to the end of its count. -/
theorem passes_behind {token' : Mem QByte} {v rest : List QByte} (hholds : token'.Holds 0 (pre ++ v ++ rest))
    (hfit : (pre ++ v ++ rest).length + 1 < cap) (hrest : Plain find rest)
    (hstale : StaleClear cap token' (pre ++ v ++ rest) v) {j : ℕ}
    (hj : pre.length + 1 + j < (pre ++ v ++ rest).length) :
    Passes cap token' find (pre.length + v.length + 1 + j) := by
  have hsum : (pre ++ v ++ rest).length = (pre ++ v).length + rest.length := length_append
  have hlength : (pre ++ v).length = pre.length + v.length := length_append
  rcases lt_trichotomy (pre.length + v.length + 1 + j) (pre ++ v ++ rest).length with hlt | heq | hgt
  · have hdrop : token'.Holds (pre.length + v.length) (rest ++ []) := by
      have := Holds.drop hholds (k := (pre ++ v).length) (by omega)
      rwa [drop_left, zero_add, hlength, ← append_nil rest] at this
    rw [add_assoc]
    exact passes_of_plain hdrop (by rw [append_nil]; omega) hrest rfl (by omega)
  · refine ⟨by omega, fun hdollar => ?_⟩
    have hend := hholds.apply_length
    rw [zero_add, ← heq, hdollar] at hend
    exact absurd hend (by decide)
  · obtain ⟨hcap, hclear⟩ := hstale _ hgt (by omega)
    exact ⟨hcap, fun hdollar => absurd hdollar hclear⟩

/-- A token one of whose names has a string is expanded, where that fits, and given up where it does not. -/
theorem macroLoop_single {value : CString} (h : Single find u pre s value) (hholds : token.Holds 0 u)
    (hcap : u.length < cap) (hstale : (expand find u).length + 1 < cap → StaleClear cap token (expand find u) value.1)
    (hexact : (expand find u).length + 1 ≠ cap) :
    ∃ token', macroLoop cap find (cap + 1) 0 0 u.length token = some token' ∧
      ((expand find u).length < cap → token'.Holds 0 (expand find u)) := by
  rw [h.expand_eq] at hstale hexact ⊢
  obtain ⟨rfl, hbefore, hfound, hbehind⟩ := h
  have hlength : (pre ++ 36 :: s).length = pre.length + 1 + s.length := by
    rw [length_append, length_cons, add_assoc, add_comm 1]
  have hread : readName cap token nameMax (pre.length + 1) = some (nameOf s) := by
    have hdrop := Holds.drop hholds (k := pre.length + 1) (by omega)
    rw [drop_length_add_append, drop_succ_cons, drop_zero, zero_add] at hdrop
    exact readName_eq hdrop (by omega) _
  have hdollar : token pre.length = 36 := by
    have hdrop := Holds.drop hholds (k := pre.length) (by omega)
    rw [drop_left, zero_add] at hdrop
    exact Holds.head hdrop
  have hpasses : ∀ j < pre.length, Passes cap token find (0 + j) := fun j hj =>
    passes_of_plain hholds (by rwa [zero_add]) hbefore rfl hj
  have hs := nameOf_append_drop s
  generalize nameOf s = name at *
  generalize s.drop name.length = rest at *
  subst hs
  have hsum : (pre ++ value.1 ++ rest).length = pre.length + value.1.length + rest.length := by
    rw [length_append, length_append]
  have hboth : (name ++ rest).length = name.length + rest.length := length_append
  rw [show cap + 1 = cap + 1 - pre.length + pre.length by omega, macroLoop_passes _ hpasses (by omega),
    show cap + 1 - pre.length = cap - pre.length + 1 by omega, macroLoop, if_neg (by omega), readCell,
    if_pos (by omega), bind_some, zero_add, if_pos hdollar, hread, bind_some]
  simp only [hfound]
  have hnew : (pre ++ 36 :: (name ++ rest)).length + value.1.length - (name.length + 1) =
      (pre ++ value.1 ++ rest).length := by omega
  by_cases hgives : givesUp cap value.1 (pre ++ 36 :: (name ++ rest)).length name.length
  · rw [if_pos hgives, put_of_lt hcap]
    refine ⟨_, rfl, fun hfit => ?_⟩
    rw [givesUp, hnew] at hgives
    omega
  · rw [if_neg hgives, hnew]
    rw [givesUp, hnew] at hgives
    obtain ⟨token', hmove, hholds', hsame⟩ := moveValue_eq hholds value.2 hcap (v := value.1) (by omega)
    rw [hmove, bind_some]
    refine ⟨token', ?_, fun _ => hholds'⟩
    have hstale' : StaleClear cap token' (pre ++ value.1 ++ rest) value.1 := fun j hj hlt => by
      rw [hsame j hj]
      exact hstale (by omega) j hj hlt
    -- the rounds that are left are those of the count, which the place has left behind
    obtain ⟨k, hk⟩ : ∃ k, k = (pre ++ value.1 ++ rest).length - (pre.length + 1) := ⟨_, rfl⟩
    rw [show cap - pre.length = cap - pre.length - k + k by omega]
    have hstop : cap - pre.length - k = cap - pre.length - k - 1 + 1 := by omega
    rcases lt_or_ge (pre.length + 1) (pre ++ value.1 ++ rest).length with hlt | hge
    · rw [macroLoop_passes k (fun j hj => passes_behind hholds' (by omega) hbehind hstale' (by omega)) (by omega),
        hstop, macroLoop, if_pos (by omega)]
    · obtain rfl : k = 0 := by omega
      rw [add_zero, hstop, macroLoop, if_pos hge]

end Loop

end StringParse

end FteQuake
