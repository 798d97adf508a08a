import FteQuake.Common.Sizebuf
import FteQuake.Lib.Scan
import Mathlib.Data.List.TakeWhile

/-!
# The statements of a command buffer

`Cbuf_GetNext` of `cmd.c`, and a round of the loop of `Cbuf_ExecuteLevel`, up to the execution of the
statement; the waits of the latter are left out. Both look for the end of the first statement, copy it
to a line, and move the rest of the text down.

They find the same end where no backslash outside quotes stands before a quote or at the end of the text
(`Plain`), since only `Cbuf_ExecuteLevel` knows escaped quotes. `Cbuf_GetNext` skips statements that are
blank, drops the blanks at the start of one, and refuses one that its line does not hold. With that, both
take the same statements from a buffer (`splitters_agree`).
-/

namespace FteQuake

open List Option Nat

namespace Cbuf

/-- The characters that the scans look for: `\n`, `"`, `/`, `;` and the backslash. -/
def newline : QByte := 10
def quote : QByte := 34
def slash : QByte := 47
def semicolon : QByte := 59
def backslash : QByte := 92

/-- `sizeof(line)` of `Cbuf_GetNext`. -/
def lineSize : ℕ := 1024

/-- The string in a line: what comes before the first 0. -/
def cstr (line : List QByte) : List QByte := line.takeWhile (· ≠ 0)

/-- The text up to `i`, and the character there, are deleted from the buffer. A size below zero ends in
a fault. -/
def deleteText (buf : Sizebuf) (i : ℕ) : Option Sizebuf :=
  if i = buf.cursize then some { buf with cursize := 0 }
  else if i + 1 ≤ buf.cursize then
    let cursize := buf.cursize - (i + 1)
    some { buf with data := buf.data.blit 0 (buf.data.slice (i + 1) cursize), cursize := cursize }
  else none

/-- The characters behind `i` start a comment. -/
def StartsComment (text : Mem QByte) (cursize i : ℕ) : Prop :=
  text i = slash ∧ i + 1 < cursize ∧ text (i + 1) = slash

instance (text : Mem QByte) (cursize i : ℕ) : Decidable (StartsComment text cursize i) :=
  inferInstanceAs (Decidable (_ ∧ _ ∧ _))

/-! ## `Cbuf_GetNext` -/

/-- A round of the loop of `Cbuf_GetNext` that looks for the end: `quotes` and `comment`. -/
def getNextStep (ignoresemicolon : Bool) (text : Mem QByte) (cursize : ℕ) (s : ℕ × Bool) (i : ℕ) :
    Option ((ℕ × Bool) × ℕ) :=
  if text i = newline then none
  else
    let quotes := if text i = quote then s.1 + 1 else s.1
    let comment := s.2 || decide (quotes % 2 = 0 ∧ StartsComment text cursize i)
    if quotes % 2 = 0 ∧ !comment ∧ text i = semicolon ∧ !ignoresemicolon then none
    else some ((quotes, comment), 0)

/-- The end of the first statement. -/
def getNextEnd (ignoresemicolon : Bool) (buf : Sizebuf) : ℕ :=
  Scan.run (getNextStep ignoresemicolon buf.data buf.cursize) buf.cursize buf.cursize 0 (0, false)

/-- `*text == ' ' || *text == '\t'`. -/
def isBlank (c : QByte) : Bool := c = 32 || c = 9

/-- A statement without the blanks at its start. -/
def trim (line : List QByte) : List QByte := line.dropWhile isBlank

/-- `Cbuf_GetNext`, from `start` on, in at most `n` rounds. -/
def getNextLoop (ignoresemicolon : Bool) : (n : ℕ) → Sizebuf → Option (List QByte × Sizebuf)
  | 0, _ => none
  | n + 1, buf =>
    let i := getNextEnd ignoresemicolon buf
    if i ≥ lineSize - 1 then some ([], buf)
    else (deleteText buf i).bind fun rest =>
      let text := trim (cstr (buf.data.slice 0 i))
      if text = [] ∧ rest.cursize ≠ 0 then getNextLoop ignoresemicolon n rest
      else some (text, rest)

/-- `Cbuf_GetNext`: the statement, and the buffer that is left. -/
def cbufGetNext (ignoresemicolon : Bool) (buf : Sizebuf) : Option (List QByte × Sizebuf) :=
  getNextLoop ignoresemicolon (buf.cursize + 1) buf

/-! ## `Cbuf_ExecuteLevel` -/

/-- `quotes`: none, a simple quoted string, an escaped quoted string. -/
inductive Quotes
  | none
  | simple
  | escaped
  deriving DecidableEq, Repr

/-- A round of the loop of `Cbuf_ExecuteLevel` that looks for the end. It looks at the character behind
`i` even where the text ends. -/
def executeStep (text : Mem QByte) (cursize : ℕ) (s : Quotes × Bool) (i : ℕ) : Option ((Quotes × Bool) × ℕ) :=
  if text i = newline then Option.none
  else match s.1 with
    | .simple => some ((if text i = quote then .none else .simple, s.2), 0)
    | .escaped =>
      if text i = quote then some ((.none, s.2), 0)
      else if text i = backslash ∧ (text (i + 1) = quote ∨ text (i + 1) = backslash) then some (s, 1)
      else some (s, 0)
    | .none =>
      if text i = quote then some ((.simple, s.2), 0)
      else if text i = backslash ∧ text (i + 1) = quote then some ((.escaped, s.2), 1)
      else if s.2 then some (s, 0)
      else if StartsComment text cursize i then some ((.none, true), 0)
      else if text i = semicolon then Option.none
      else some (s, 0)

/-- The end of the first statement. -/
def executeEnd (buf : Sizebuf) : ℕ :=
  Scan.run (executeStep buf.data buf.cursize) buf.cursize buf.cursize 0 (.none, false)

/-- The statement that a round of `Cbuf_ExecuteLevel` executes, and the buffer that is left. -/
def executeNext (buf : Sizebuf) : Option (List QByte × Sizebuf) :=
  (deleteText buf (executeEnd buf)).map fun rest => (cstr (buf.data.slice 0 (executeEnd buf)), rest)

/-! ## Where the ends agree -/

/-- The position `i` is in a quoted string on its line. -/
def quoted (text : Mem QByte) : ℕ → Bool
  | 0 => false
  | i + 1 => if text i = newline then false else if text i = quote then !quoted text i else quoted text i

/-- Outside quoted strings, no backslash stands before a quote or at the end of the text. -/
def Plain (buf : Sizebuf) : Prop :=
  ∀ i < buf.cursize, buf.data i = backslash → (buf.data (i + 1) = quote ∨ i + 1 = buf.cursize) →
    quoted buf.data i = true

/-- The two scans are at the same position, with the same quotes. -/
inductive Agrees (text : Mem QByte) (i : ℕ) : ℕ × Bool → Quotes × Bool → Prop
  | outside (quotes : ℕ) (comment : Bool) (h : quotes % 2 = 0) (hq : quoted text i = false) :
    Agrees text i (quotes, comment) (.none, comment)
  | inside (quotes : ℕ) (comment : Bool) (h : quotes % 2 = 1) (hq : quoted text i = true) :
    Agrees text i (quotes, comment) (.simple, comment)

variable {buf rest : Sizebuf} {text : Mem QByte} {i : ℕ}

theorem quoted_of_quote (hquote : text i = quote) : quoted text (i + 1) = !quoted text i := by
  have hline : ¬text i = newline := by
    rw [hquote]
    decide
  rw [quoted, if_neg hline, if_pos hquote]

theorem quoted_of_ne (hline : text i ≠ newline) (hquote : text i ≠ quote) : quoted text (i + 1) = quoted text i := by
  rw [quoted, if_neg hline, if_neg hquote]

variable (cursize : ℕ)

theorem getNextStep_quote (quotes : ℕ) (comment : Bool) (hquote : text i = quote) :
    getNextStep false text cursize (quotes, comment) i = some ((quotes + 1, comment), 0) := by
  have hline : quote ≠ newline := by decide
  have hslash : ¬StartsComment text cursize i := by
    rw [StartsComment, hquote]
    exact fun h => absurd h.1 (by decide)
  have hsemi : quote ≠ semicolon := by decide
  simp [getNextStep, hquote, hline, hslash, hsemi]

theorem executeStep_simple (comment : Bool) (hline : text i ≠ newline) :
    executeStep text cursize (.simple, comment) i =
      some ((if text i = quote then .none else .simple, comment), 0) := if_neg hline

theorem executeStep_none (comment : Bool) (hline : text i ≠ newline) :
    executeStep text cursize (.none, comment) i =
      if text i = quote then some ((.simple, comment), 0)
      else if text i = backslash ∧ text (i + 1) = quote then some ((.escaped, comment), 1)
      else if comment then some ((.none, comment), 0)
      else if StartsComment text cursize i then some ((.none, true), 0)
      else if text i = semicolon then none
      else some ((.none, comment), 0) := if_neg hline

/-- Inside a quoted string both scans go on. -/
theorem agrees_inside {quotes : ℕ} (comment : Bool) (h : quotes % 2 = 1)
    (hq : quoted text i = true) (hline : text i ≠ newline) :
    ∃ s' t', getNextStep false text cursize (quotes, comment) i = some (s', 0) ∧
      executeStep text cursize (.simple, comment) i = some (t', 0) ∧ Agrees text (i + 1) s' t' := by
  by_cases hquote : text i = quote
  · refine ⟨_, (.none, comment), getNextStep_quote cursize quotes comment hquote, ?_, .outside _ _ (by omega) ?_⟩
    · rw [executeStep_simple cursize comment hline, if_pos hquote]
    · rw [quoted_of_quote hquote, hq]
      rfl
  · refine ⟨(quotes, comment), (.simple, comment), ?_, ?_, .inside _ _ h ?_⟩
    · simp [getNextStep, hline, hquote, h]
    · rw [executeStep_simple cursize comment hline, if_neg hquote]
    · rw [quoted_of_ne hline hquote, hq]

/-- Outside, they stop at the same characters, where no escaped quote begins. -/
theorem agrees_outside {quotes : ℕ} (comment : Bool) (h : quotes % 2 = 0)
    (hq : quoted text i = false) (hline : text i ≠ newline) (hescape : ¬(text i = backslash ∧ text (i + 1) = quote)) :
    (getNextStep false text cursize (quotes, comment) i = none ∧
      executeStep text cursize (.none, comment) i = none) ∨
    ∃ s' t', getNextStep false text cursize (quotes, comment) i = some (s', 0) ∧
      executeStep text cursize (.none, comment) i = some (t', 0) ∧ Agrees text (i + 1) s' t' := by
  by_cases hquote : text i = quote
  · refine .inr ⟨_, (.simple, comment), getNextStep_quote cursize quotes comment hquote, ?_, .inside _ _ (by omega) ?_⟩
    · rw [executeStep_none cursize comment hline, if_pos hquote]
    · rw [quoted_of_quote hquote, hq]
      rfl
  have hnext : quoted text (i + 1) = false := by rw [quoted_of_ne hline hquote, hq]
  have hget : getNextStep false text cursize (quotes, comment) i =
      if ¬(comment = true ∨ StartsComment text cursize i) ∧ text i = semicolon then none
      else some ((quotes, comment || decide (StartsComment text cursize i)), 0) := by
    simp [getNextStep, hline, hquote, h]
  have hexecute : executeStep text cursize (.none, comment) i = if comment then some ((.none, comment), 0)
      else if StartsComment text cursize i then some ((.none, true), 0)
      else if text i = semicolon then none
      else some ((.none, comment), 0) := by
    rw [executeStep_none cursize comment hline, if_neg hquote, if_neg hescape]
  rw [hget, hexecute]
  cases comment with
  | true =>
    refine .inr ⟨(quotes, true), (.none, true), ?_, rfl, .outside _ _ h hnext⟩
    rw [if_neg (fun hstop => hstop.1 (.inl rfl)), Bool.true_or]
  | false =>
    rw [if_neg Bool.false_ne_true]
    by_cases hcomment : StartsComment text cursize i
    · refine .inr ⟨(quotes, true), (.none, true), ?_, if_pos hcomment, .outside _ _ h hnext⟩
      rw [if_neg (fun hstop => hstop.1 (.inr hcomment)), decide_eq_true hcomment, Bool.or_true]
    · rw [if_neg hcomment, decide_eq_false hcomment, Bool.or_false]
      by_cases hsemi : text i = semicolon
      · exact .inl ⟨if_pos ⟨fun hc => hc.elim Bool.false_ne_true hcomment, hsemi⟩, if_pos hsemi⟩
      · exact .inr ⟨(quotes, false), (.none, false), if_neg fun hstop => hsemi hstop.2, if_neg hsemi,
          .outside _ _ h hnext⟩

variable (ignoresemicolon : Bool)

theorem step_newline (cursize : ℕ) (s : ℕ × Bool) (t : Quotes × Bool) (h : text i = newline) :
    getNextStep ignoresemicolon text cursize s i = none ∧ executeStep text cursize t i = none :=
  ⟨if_pos h, if_pos h⟩

/-- **The first statement ends at the same character for both.** -/
theorem getNextEnd_eq (hplain : Plain buf) : getNextEnd false buf = executeEnd buf := by
  refine Scan.run_congr (R := fun i s t => Agrees buf.data i s t) ?_ (.outside 0 false rfl rfl)
  intro i s t hi hagrees
  by_cases hline : buf.data i = newline
  · exact .inl (step_newline false buf.cursize s t hline)
  cases hagrees with
  | outside quotes comment h hq =>
    have hescape : ¬(buf.data i = backslash ∧ buf.data (i + 1) = quote) := by
      rintro ⟨hb, hquote⟩
      exact absurd (hplain i hi hb (.inl hquote)) (by rw [hq]; decide)
    refine (agrees_outside buf.cursize comment h hq hline hescape).imp_right ?_
    rintro ⟨s', t', hs, ht, hnext⟩
    exact ⟨s', t', 0, hs, ht, hnext⟩
  | inside quotes comment h hq =>
    obtain ⟨s', t', hs, ht, hnext⟩ := agrees_inside buf.cursize comment h hq hline
    exact .inr ⟨s', t', 0, hs, ht, hnext⟩

/-! ## What a round leaves -/

/-- A round of `Cbuf_GetNext` that goes on counts the quotes. -/
theorem getNextStep_some {ignoresemicolon : Bool} {cursize : ℕ} {s : ℕ × Bool} {r : (ℕ × Bool) × ℕ}
    (h : r ∈ getNextStep ignoresemicolon text cursize s i) :
    text i ≠ newline ∧ r.2 = 0 ∧ r.1.1 = if text i = quote then s.1 + 1 else s.1 := by
  obtain ⟨hline, hgo⟩ := ite_none_left_eq_some.mp h
  obtain ⟨-, hr⟩ := ite_none_left_eq_some.mp hgo
  cases hr
  exact ⟨hline, rfl, rfl⟩

theorem getNextEnd_le (buf : Sizebuf) : getNextEnd ignoresemicolon buf ≤ buf.cursize :=
  Scan.run_le (fun _ _ _ h => (getNextStep_some h).2.1) (Nat.zero_le _)

/-- The count of `Cbuf_GetNext` says what is quoted. -/
theorem getNextStep_quoted {ignoresemicolon : Bool} {cursize : ℕ} (i : ℕ) (s : ℕ × Bool)
    (h : quoted text i = decide (s.1 % 2 = 1)) (r : (ℕ × Bool) × ℕ)
    (hr : r ∈ getNextStep ignoresemicolon text cursize s i) : quoted text (i + 1 + r.2) = decide (r.1.1 % 2 = 1) := by
  obtain ⟨hline, hskip, hquotes⟩ := getNextStep_some hr
  rw [hskip, hquotes, add_zero]
  split
  · rename_i hquote
    rw [quoted_of_quote hquote, h, ← decide_not]
    congr 1
    exact propext (by omega)
  · rename_i hquote
    rw [quoted_of_ne hline hquote, h]

/-- Behind a statement nothing is quoted. -/
theorem quoted_getNextEnd (h : getNextEnd ignoresemicolon buf < buf.cursize) :
    quoted buf.data (getNextEnd ignoresemicolon buf + 1) = false := by
  obtain ⟨t, ht, hend⟩ : ∃ t : ℕ × Bool, quoted buf.data (getNextEnd ignoresemicolon buf) = decide (t.1 % 2 = 1) ∧
      (buf.cursize ≤ getNextEnd ignoresemicolon buf ∨
        getNextStep ignoresemicolon buf.data buf.cursize t (getNextEnd ignoresemicolon buf) = none) := by
    refine Scan.run_end (P := fun i (s : ℕ × Bool) => quoted buf.data i = decide (s.1 % 2 = 1)) ?_ ?_ rfl
    · exact fun i s _ => getNextStep_quoted i s
    · exact (Nat.zero_add _).ge
  have hstop := hend.resolve_left (not_le.mpr h)
  by_cases hline : buf.data (getNextEnd ignoresemicolon buf) = newline
  · rw [quoted, if_pos hline]
  · have hsemi : buf.data (getNextEnd ignoresemicolon buf) = semicolon := by
      by_contra hsemi
      rw [getNextStep, if_neg hline, if_neg (fun hc => hsemi hc.2.2.1)] at hstop
      cases hstop
    have hquote : buf.data (getNextEnd ignoresemicolon buf) ≠ quote := by
      rw [hsemi]
      decide
    rw [quoted_of_ne hline hquote, ht, decide_eq_false_iff_not]
    intro hodd
    rw [getNextStep, if_neg hline, if_neg hquote, if_neg (fun hc => by omega)] at hstop
    cases hstop

/-- The buffer without the text up to `i` and the character there. -/
structure Deleted (buf : Sizebuf) (i : ℕ) (rest : Sizebuf) : Prop where
  deleteText : deleteText buf i = some rest
  cursize : rest.cursize = buf.cursize - (i + 1)
  data (j : ℕ) (h : j < rest.cursize) : rest.data j = buf.data (i + 1 + j)

theorem deleteText_of_le (h : i ≤ buf.cursize) : ∃ rest, Deleted buf i rest := by
  by_cases hi : i = buf.cursize
  · exact ⟨_, if_pos hi, by change 0 = _; omega, fun j hj => absurd hj (not_lt_zero j)⟩
  · refine ⟨_, (if_neg hi).trans (if_pos (by omega)), rfl, fun j hj => ?_⟩
    change (buf.data.blit 0 (buf.data.slice (i + 1) (buf.cursize - (i + 1)))) j = _
    change j < buf.cursize - (i + 1) at hj
    rw [Mem.blit, if_pos (Nat.zero_le j), Nat.sub_zero, getElem?_eq_getElem (by simpa using hj),
      getD_some, Mem.getElem_slice]

/-- What is quoted behind a statement does not depend on the statement. -/
theorem Deleted.quoted_eq (h : Deleted buf i rest) (hq : quoted buf.data (i + 1) = false) {j : ℕ}
    (hj : j ≤ rest.cursize) : quoted rest.data j = quoted buf.data (i + 1 + j) := by
  induction j with
  | zero => exact hq.symm
  | succ j ih => rw [quoted, h.data j hj, ih (le_of_succ_le hj), ← add_assoc, quoted]

theorem Deleted.plain (h : Deleted buf i rest) (hq : i < buf.cursize → quoted buf.data (i + 1) = false)
    (hplain : Plain buf) : Plain rest := by
  have hsize := h.cursize
  intro j hj hb hnext
  rw [h.quoted_eq (hq (by omega)) (le_of_lt hj)]
  rw [h.data j hj] at hb
  refine hplain _ (by omega) hb (hnext.elim (fun hquote => ?_) fun hend => .inr (by omega))
  rcases lt_or_ge (j + 1) rest.cursize with hlt | hge
  · rw [h.data (j + 1) hlt] at hquote
    exact .inl hquote
  · exact .inr (by omega)

/-- A text that the engine keeps: without a 0, and `Plain`. -/
structure Text (buf : Sizebuf) : Prop where
  plain : Plain buf
  zero_notMem : 0 ∉ buf.contents

/-- A round of `Cbuf_ExecuteLevel` takes `line`, and `rest` is left. -/
structure Round (buf : Sizebuf) (line : List QByte) (rest : Sizebuf) : Prop where
  next : executeNext buf = some (line, rest)
  deleteText : deleteText buf (getNextEnd false buf) = some rest
  cstr_eq : cstr (buf.data.slice 0 (getNextEnd false buf)) = line
  length : line.length = getNextEnd false buf
  cursize_le : rest.cursize ≤ buf.cursize - 1
  text : Text rest

variable {line : List QByte} {m n : ℕ}

theorem cstr_of_notMem (h : 0 ∉ line) : cstr line = line := by
  rw [cstr, takeWhile_eq_self_iff]
  intro c hc
  exact decide_eq_true fun hzero => h (hzero ▸ hc)

theorem mem_contents {c : QByte} : c ∈ buf.contents ↔ ∃ j < buf.cursize, buf.data j = c := by
  simp [Sizebuf.contents, Mem.slice, mem_range'_1]

theorem Text.round (h : Text buf) : ∃ line rest, Round buf line rest := by
  have hend := getNextEnd_le false buf
  obtain ⟨rest, hrest⟩ := deleteText_of_le hend
  have hcontents : buf.contents = buf.data.slice 0 (getNextEnd false buf) ++
      buf.data.slice (getNextEnd false buf) (buf.cursize - getNextEnd false buf) := by
    rw [Sizebuf.contents, ← Nat.add_sub_cancel' hend, Mem.slice_add, Nat.zero_add, Nat.add_sub_cancel' hend]
  have hzero : 0 ∉ buf.data.slice 0 (getNextEnd false buf) := fun hmem =>
    h.zero_notMem (hcontents ▸ mem_append_left _ hmem)
  have hplain : Plain rest := hrest.plain (quoted_getNextEnd false) h.plain
  refine ⟨_, rest, ?_, hrest.deleteText, cstr_of_notMem hzero, Mem.length_slice _ _ _, ?_, hplain, ?_⟩
  · rw [executeNext, ← getNextEnd_eq h.plain, hrest.deleteText, cstr_of_notMem hzero]
    rfl
  · rw [hrest.cursize]
    omega
  · intro hmem
    obtain ⟨j, hj, hget⟩ := mem_contents.mp hmem
    have hsize := hrest.cursize
    rw [hrest.data j hj] at hget
    exact h.zero_notMem (mem_contents.mpr ⟨_, by omega, hget⟩)

/-! ## The statements -/

/-- The first statement, as `Cbuf_GetNext` has it, from the rounds of `Cbuf_ExecuteLevel`: a blank one is
skipped, blanks at the start are dropped, one that the line does not hold stays in the buffer. -/
def firstStatement : (n : ℕ) → Sizebuf → Option (List QByte × Sizebuf)
  | 0, _ => none
  | n + 1, buf => (executeNext buf).bind fun r =>
    if r.1.length ≥ lineSize - 1 then some ([], buf)
    else if trim r.1 = [] ∧ r.2.cursize ≠ 0 then firstStatement n r.2
    else some (trim r.1, r.2)

/-- The buffer is drained by the rounds of `Cbuf_ExecuteLevel`, in at most `n` of them. -/
def executeAll : (n : ℕ) → Sizebuf → Option (List (List QByte) × Sizebuf)
  | 0, buf => if buf.cursize = 0 then some ([], buf) else none
  | n + 1, buf =>
    if buf.cursize = 0 then some ([], buf)
    else (executeNext buf).bind fun r => (executeAll n r.2).map fun t => (r.1 :: t.1, t.2)

/-- The buffer is drained by `Cbuf_GetNext`, up to an empty statement. -/
def getNextAll : (n : ℕ) → Sizebuf → Option (List (List QByte) × Sizebuf)
  | 0, _ => none
  | n + 1, buf => (cbufGetNext false buf).bind fun r =>
    if r.1 = [] then some ([], r.2) else (getNextAll n r.2).map fun t => (r.1 :: t.1, t.2)

theorem Round.firstStatement_succ (h : Round buf line rest) (n : ℕ) :
    firstStatement (n + 1) buf =
      if line.length ≥ lineSize - 1 then some ([], buf)
      else if trim line = [] ∧ rest.cursize ≠ 0 then firstStatement n rest
      else some (trim line, rest) := by
  rw [firstStatement, h.next, bind_some]

theorem getNextLoop_eq (h : Text buf) (n : ℕ) : getNextLoop false n buf = firstStatement n buf := by
  induction n generalizing buf with
  | zero => rfl
  | succ n ih =>
    obtain ⟨line, rest, hround⟩ := h.round
    rw [hround.firstStatement_succ, hround.length, getNextLoop]
    dsimp only
    rw [hround.deleteText, bind_some, hround.cstr_eq, ih hround.text]

/-- Fuel beyond the size does not matter. -/
theorem firstStatement_fuel (h : Text buf) (hm : buf.cursize < m) (hn : buf.cursize < n) :
    firstStatement m buf = firstStatement n buf := by
  induction m generalizing buf n with
  | zero => exact absurd hm (not_lt_zero _)
  | succ m ih =>
    cases n with
    | zero => exact absurd hn (not_lt_zero _)
    | succ n =>
      obtain ⟨line, rest, hround⟩ := h.round
      rw [hround.firstStatement_succ, hround.firstStatement_succ]
      split_ifs with hlong hblank
      · rfl
      · have hsize := hround.cursize_le
        exact ih hround.text (by omega) (by omega)
      · rfl

theorem cbufGetNext_eq (h : Text buf) : cbufGetNext false buf = firstStatement (buf.cursize + 1) buf :=
  getNextLoop_eq h _

/-- A round, as `Cbuf_GetNext` has it. -/
theorem Round.cbufGetNext (h : Round buf line rest) (htext : Text buf) :
    Cbuf.cbufGetNext false buf =
      if line.length ≥ lineSize - 1 then some ([], buf)
      else if trim line = [] ∧ rest.cursize ≠ 0 then Cbuf.cbufGetNext false rest
      else some (trim line, rest) := by
  have hsize := h.cursize_le
  rw [cbufGetNext_eq htext, h.firstStatement_succ, cbufGetNext_eq h.text]
  split_ifs with hlong hblank
  · rfl
  · exact firstStatement_fuel h.text (by omega) (by omega)
  · rfl

/-- The statements that `Cbuf_GetNext` gives of those of `Cbuf_ExecuteLevel`: up to one that its line does not
hold, those that are not blank, without the blanks at the start. -/
def taken (lines : List (List QByte)) : List (List QByte) :=
  ((lines.takeWhile fun line => line.length < lineSize - 1).map trim).filter (· ≠ [])

theorem taken_of_long (lines : List (List QByte)) (h : line.length ≥ lineSize - 1) :
    taken (line :: lines) = [] := by
  rw [taken, takeWhile_cons_of_neg (by simpa using h)]
  rfl

theorem taken_of_short (lines : List (List QByte)) (h : ¬line.length ≥ lineSize - 1) :
    taken (line :: lines) = if trim line = [] then taken lines else trim line :: taken lines := by
  have hpos : decide (line.length < lineSize - 1) = true := decide_eq_true (not_le.mp h)
  rw [taken, takeWhile_cons, if_pos hpos, map_cons, filter_cons]
  simp only [decide_eq_true_eq, ne_eq, ite_not]
  rfl

/-- The two ways to drain a buffer, from one on. -/
def DrainsAgree (n m : ℕ) (buf : Sizebuf) : Prop :=
  ∃ lines drained rest, executeAll n buf = some (lines, drained) ∧ drained.cursize = 0 ∧
    getNextAll m buf = some (taken lines, rest) ∧
    ((∀ line ∈ lines, line.length < lineSize - 1) → rest.cursize = 0)

theorem executeAll_of_empty (hempty : buf.cursize = 0) (n : ℕ) : executeAll n buf = some ([], buf) := by
  cases n with
  | zero => exact if_pos hempty
  | succ n => exact if_pos hempty

theorem drainsAgree_of_empty (h : Text buf) (hempty : buf.cursize = 0) (n : ℕ) (hm : 0 < m) :
    DrainsAgree n m buf := by
  obtain ⟨line, rest, hround⟩ := h.round
  have hsize := hround.cursize_le
  have hend := getNextEnd_le false buf
  have hline : line = [] := length_eq_zero_iff.mp (by rw [hround.length]; omega)
  have hrest : rest.cursize = 0 := by omega
  refine ⟨[], buf, rest, executeAll_of_empty hempty n, hempty, ?_, fun _ => hrest⟩
  obtain ⟨m, rfl⟩ := exists_eq_succ_of_ne_zero (ne_of_gt hm)
  have hnot : ¬(trim [] = [] ∧ rest.cursize ≠ 0) := fun hblank => hblank.2 hrest
  rw [getNextAll, hround.cbufGetNext h, hline, if_neg (by decide), if_neg hnot]
  rfl

/-- A round that goes before. -/
theorem DrainsAgree.round (h : Text buf) (hround : Round buf line rest)
    (hsize : buf.cursize ≠ 0) (ih : ∀ m, rest.cursize < m → DrainsAgree n m rest) (hm : rest.cursize + 1 < m) :
    DrainsAgree (n + 1) m buf := by
  obtain ⟨m, rfl⟩ := exists_eq_succ_of_ne_zero (ne_of_gt (zero_lt_of_lt hm))
  have hexecute {lines : List (List QByte)} {drained : Sizebuf} (hlines : executeAll n rest = some (lines, drained)) :
      executeAll (n + 1) buf = some (line :: lines, drained) := by
    rw [executeAll, if_neg hsize, hround.next, bind_some, hlines, map_some]
  have hget := hround.cbufGetNext h
  by_cases hlong : line.length ≥ lineSize - 1
  · obtain ⟨lines, drained, _, hlines, hdrained, -, -⟩ := ih m (by omega)
    refine ⟨line :: lines, drained, buf, hexecute hlines, hdrained, ?_, fun hall => ?_⟩
    · rw [getNextAll, hget, if_pos hlong, bind_some, if_pos rfl, taken_of_long lines hlong]
    · exact absurd (hall line mem_cons_self) (not_lt.mpr hlong)
  rw [if_neg hlong] at hget
  have hshort {lines : List (List QByte)} (hall : ∀ l ∈ line :: lines, l.length < lineSize - 1) :
      ∀ l ∈ lines, l.length < lineSize - 1 := fun l hl => hall l (mem_cons_of_mem line hl)
  by_cases hblank : trim line = []
  · by_cases hrest : rest.cursize = 0
    · refine ⟨[line], rest, rest, hexecute (executeAll_of_empty hrest n), hrest, ?_, fun _ => hrest⟩
      rw [if_neg fun hb => hb.2 hrest, hblank] at hget
      rw [getNextAll, hget, bind_some, if_pos rfl, taken_of_short [] hlong, if_pos hblank]
      rfl
    · obtain ⟨lines, drained, left, hlines, hdrained, hnext, hend⟩ := ih (m + 1) (by omega)
      rw [if_pos ⟨hblank, hrest⟩] at hget
      refine ⟨line :: lines, drained, left, hexecute hlines, hdrained, ?_, fun hall => hend (hshort hall)⟩
      rw [getNextAll, hget, taken_of_short lines hlong, if_pos hblank]
      exact hnext
  · obtain ⟨lines, drained, left, hlines, hdrained, hnext, hend⟩ := ih m (by omega)
    refine ⟨line :: lines, drained, left, hexecute hlines, hdrained, ?_, fun hall => hend (hshort hall)⟩
    rw [if_neg fun hb => hblank hb.1] at hget
    rw [getNextAll, hget, bind_some, if_neg hblank, hnext, map_some, taken_of_short lines hlong, if_neg hblank]

theorem drainsAgree (h : Text buf) (hn : buf.cursize ≤ n) (hm : buf.cursize < m) :
    DrainsAgree n m buf := by
  induction n generalizing buf m with
  | zero => exact drainsAgree_of_empty h (le_zero.mp hn) 0 (by omega)
  | succ n ih =>
    by_cases hsize : buf.cursize = 0
    · exact drainsAgree_of_empty h hsize (n + 1) (by omega)
    · obtain ⟨line, rest, hround⟩ := h.round
      have hrest := hround.cursize_le
      exact .round h hround hsize (fun m hm => ih hround.text (by omega) hm) (by omega)

/-- **Both take the same statements.** The first statement of `Cbuf_GetNext` is the first of
`Cbuf_ExecuteLevel` that is not blank, without the blanks at its start, and the same text is left. Drained
one after the other they are the same, up to one that is too long for `Cbuf_GetNext`, and if there is none,
both leave nothing. -/
theorem splitters_agree (hplain : Plain buf) (hzero : 0 ∉ buf.contents) :
    cbufGetNext false buf = firstStatement (buf.cursize + 1) buf ∧
      DrainsAgree buf.cursize (buf.cursize + 1) buf :=
  ⟨cbufGetNext_eq ⟨hplain, hzero⟩, drainsAgree ⟨hplain, hzero⟩ le_rfl (Nat.lt_succ_self _)⟩

/-- A buffer with a text, and a character behind it from before. -/
def bufferWith (text : List QByte) (stale : QByte) : Sizebuf :=
  { Sizebuf.bufferOf text 8 with data := Mem.blit (fun _ => stale) 0 text }

/-- A statement of `n` characters. -/
def longBuffer (n : ℕ) : Sizebuf := { Sizebuf.bufferOf [] n with data := fun _ => 97, cursize := n }

/-- What a round gives: the statement and the text that is left. -/
def outcome (r : Option (List QByte × Sizebuf)) : Option (List QByte × List QByte) :=
  r.map fun r => (r.1, r.2.contents)

/-- `"a";b` drains to the same two statements. -/
theorem splitters_agree_quoted :
    cbufGetNext false (bufferWith [34, 97, 34, 59, 98] 0) = firstStatement 6 (bufferWith [34, 97, 34, 59, 98] 0) ∧
      DrainsAgree 5 6 (bufferWith [34, 97, 34, 59, 98] 0) :=
  splitters_agree (by unfold Plain; decide) (by decide)

/-- They differ on `;a`, whose first statement is blank, on a statement of 1023 characters, on the escaped
quotes of `\"a\";b`, and on a backslash at the end with a quote behind it. -/
theorem splitters_differ :
    outcome (cbufGetNext false (bufferWith [59, 97] 0)) = some ([97], []) ∧
    outcome (executeNext (bufferWith [59, 97] 0)) = some ([], [97]) ∧
    (cbufGetNext false (longBuffer 1023)).map (·.1) = some [] ∧
    (executeNext (longBuffer 1023)).map (·.2.cursize) = some 0 ∧
    outcome (cbufGetNext false (bufferWith [92, 34, 97, 92, 34, 59, 98] 0)) = some ([92, 34, 97, 92, 34], [98]) ∧
    outcome (executeNext (bufferWith [92, 34, 97, 92, 34, 59, 98] 0)) = some ([92, 34, 97, 92, 34, 59, 98], []) ∧
    outcome (cbufGetNext false (bufferWith [97, 92] 34)) = some ([97, 92], []) ∧
    outcome (executeNext (bufferWith [97, 92] 34)) = none := by
  refine ⟨?_, ?_, ?_, ?_, ?_, ?_, ?_, ?_⟩ <;> decide +kernel

end Cbuf

end FteQuake
