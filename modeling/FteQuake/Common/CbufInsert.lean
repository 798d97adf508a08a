import FteQuake.Common.CbufSplit
import Mathlib.Data.List.GetD

/-!
# Text that is added to a command buffer

`Cbuf_AddText` and `Cbuf_InsertText` of `cmd.c`, on the main thread. A text is read up to its first 0, and
memory that is allocated holds anything, which is what a buffer holds behind its size.

What a text says to do are its statements, as `Cbuf_ExecuteLevel` finds them (`statements`). Text that is
added goes behind what is there, or is refused (`addText_cases`). Text that is inserted goes before it,
unless the text that was there is refused when it is put back (`insertText_kept`); then its statements
come before those that were there, if the last of them is ended (`commands_newline`, `commands_append`).
-/

namespace FteQuake

open List Option

namespace Cbuf

/-! ## `Cbuf_AddText` and `Cbuf_InsertText` -/

/-- `while (newmax < cmd_text[level].buf.cursize + l) newmax*=2;`, in at most `n` rounds. -/
def growLoop (need : ℕ) : (n : ℕ) → ℕ → ℕ
  | 0, newmax => newmax
  | n + 1, newmax => if newmax < need then growLoop need n (newmax * 2) else newmax

/-- The first allocation of a buffer. -/
def allocate (buf : Sizebuf) : Sizebuf := if buf.maxsize = 0 then { buf with maxsize := 8192 } else buf

/-- The buffer has to grow, and `cmd_maxbuffersize` is against it. -/
def Refused (maxbuffersize : ℤ) (l : ℕ) (buf : Sizebuf) : Prop :=
  buf.cursize + l ≥ buf.maxsize ∧ (buf.maxsize * 2 : ℕ) > maxbuffersize ∧ maxbuffersize ≠ 0

instance (maxbuffersize : ℤ) (l : ℕ) (buf : Sizebuf) : Decidable (Refused maxbuffersize l buf) :=
  inferInstanceAs (Decidable (_ ∧ _ ∧ _))

/-- The buffer with room for `l` characters. -/
def makeRoom (l : ℕ) (buf : Sizebuf) : Sizebuf :=
  if buf.cursize + l ≥ buf.maxsize then
    { buf with maxsize := growLoop (buf.cursize + l) (buf.cursize + l) (buf.maxsize * 2) }
  else buf

/-- `Cbuf_AddText`, to the buffer of a level: whether it reports an overflow, and the buffer. -/
def addText (maxbuffersize : ℤ) (text : List QByte) (buf : Sizebuf) : Option (Bool × Sizebuf) :=
  let l := (cstr text).length
  let buf := allocate buf
  if Refused maxbuffersize l buf then some (true, buf)
  else ((szWrite (cstr text)).run (makeRoom l buf)).map fun r => (false, r.2)

/-- A text that is added under a condition. -/
def addTextIf (maxbuffersize : ℤ) (text : List QByte) (p : Bool) (buf : Sizebuf) : Option (Bool × Sizebuf) :=
  if p then addText maxbuffersize text buf else some (false, buf)

/-- Which of the texts that `Cbuf_InsertText` adds are refused: the new one, the newline, and the one that
was there. -/
structure Refusals where
  text : Bool
  newline : Bool
  rest : Bool
  deriving DecidableEq

/-- `Cbuf_InsertText`, to the buffer of a level. -/
def insertText (maxbuffersize : ℤ) (text : List QByte) (addnl : Bool) (buf : Sizebuf) :
    Option (Refusals × Sizebuf) := do
  let templen := buf.cursize
  let temp := buf.contents
  let buf := if templen ≠ 0 then szClear buf else buf
  let (r₁, buf) ← addText maxbuffersize text buf
  let (r₂, buf) ← addTextIf maxbuffersize [newline] addnl buf
  let (r₃, buf) ← addTextIf maxbuffersize temp (templen ≠ 0) buf
  return (⟨r₁, r₂, r₃⟩, buf)

/-- The buffer of a level of `cmd_text`. A level that is too large or below 0 is rejected, which leaves no
report; one past the last is not. -/
def onLevel {α : Type} (f : Sizebuf → Option (α × Sizebuf)) (level : ℤ) (cmdText : List Sizebuf) :
    Option (Option α × List Sizebuf) :=
  if level > cmdText.length ∨ level < 0 then some (none, cmdText)
  else do
    let (r, buf) ← f (← cmdText[level.toNat]?)
    return (some r, cmdText.set level.toNat buf)

/-- `Cbuf_AddText`. -/
def cbufAddText (maxbuffersize : ℤ) (text : List QByte) (level : ℤ) (cmdText : List Sizebuf) :
    Option (Option Bool × List Sizebuf) :=
  onLevel (addText maxbuffersize text) level cmdText

/-- `Cbuf_InsertText`. -/
def cbufInsertText (maxbuffersize : ℤ) (text : List QByte) (level : ℤ) (addnl : Bool) (cmdText : List Sizebuf) :
    Option (Option Refusals × List Sizebuf) :=
  onLevel (insertText maxbuffersize text addnl) level cmdText

/-! ## Statements -/

/-- The memory of a text. -/
def memory (t : List QByte) : Mem QByte := Mem.blit (fun _ => 0) 0 t

/-- `Cbuf_ExecuteLevel` on a text: the rest of the statement that it is in, and what is left behind the
character that ends the statement, if there is one. -/
def splitStatement (s : Quotes × Bool) : List QByte → List QByte × Option (List QByte)
  | [] => ([], none)
  | c :: t =>
    match executeStep (memory (c :: t)) (t.length + 1) s 0 with
    | none => ([], some t)
    | some (s', k) =>
      let (line, rest) := splitStatement s' (t.drop k)
      (c :: t.take k ++ line, rest)
termination_by t => t.length
decreasing_by
  rw [List.length_drop, List.length_cons]
  omega

section Split

variable {text text' : Mem QByte} {cursize cursize' i j k : ℕ} {s s' : Quotes × Bool} {c : QByte}
  {t u line rest : List QByte}

/-- A round looks at a character, and whether a quote, a backslash or a second slash is behind it. -/
theorem executeStep_congr (h : text i = text' j)
    (hquote : text i = backslash → (text (i + 1) = quote ↔ text' (j + 1) = quote))
    (hslash : text i = backslash → (text (i + 1) = backslash ↔ text' (j + 1) = backslash))
    (hcomment : StartsComment text cursize i ↔ StartsComment text' cursize' j) :
    executeStep text cursize s i = executeStep text' cursize' s j := by
  unfold executeStep
  rw [← h]
  by_cases hb : text i = backslash
  · simp only [hquote hb, hslash hb, hcomment]
  · simp [hb, hcomment]

theorem executeStep_eq_none_iff : executeStep text cursize s i = none ↔
    text i = newline ∨ s = (.none, false) ∧ text i = semicolon := by
  obtain ⟨q, comment⟩ := s
  unfold executeStep StartsComment
  cases q <;> cases comment <;> grind [newline, quote, slash, semicolon, backslash]

theorem memory_zero (c : QByte) (t : List QByte) : memory (c :: t) 0 = c := rfl

theorem memory_one (c : QByte) (t : List QByte) : memory (c :: t) 1 = t.head?.getD 0 := by
  cases t <;> rfl

/-- Only characters of the text are left out. -/
theorem skip_le_length (h : executeStep (memory (c :: t)) (t.length + 1) s 0 = some (s', k)) : k ≤ t.length := by
  cases t with
  | cons d t =>
    have hk : k ≤ 1 := by
      unfold executeStep at h
      grind
    exact hk.trans (Nat.le_add_left 1 _)
  | nil =>
    unfold executeStep at h
    grind [memory_one, quote, backslash]

/-- A round in front of a character does not look further. -/
theorem executeStep_append (d : QByte) :
    executeStep (memory (c :: (d :: t ++ u))) ((d :: t ++ u).length + 1) s 0 =
      executeStep (memory (c :: d :: t)) ((d :: t).length + 1) s 0 :=
  executeStep_congr rfl (fun _ => Iff.rfl) (fun _ => Iff.rfl) <| by
    simp only [StartsComment, length_append, length_cons]
    exact and_congr Iff.rfl (and_congr (by omega) Iff.rfl)

/-- At the end of a text a round sees no more than in front of a newline. -/
theorem executeStep_newline :
    executeStep (memory (c :: newline :: u)) ((newline :: u).length + 1) s 0 =
      executeStep (memory [c]) 1 s 0 := by
  have hone : memory (c :: newline :: u) 1 = newline := rfl
  have hend : memory [c] 1 = 0 := rfl
  refine executeStep_congr rfl (fun _ => ?_) (fun _ => ?_) ?_
  · rw [Nat.zero_add, hone, hend]
    decide
  · rw [Nat.zero_add, hone, hend]
    decide
  · rw [StartsComment, StartsComment, Nat.zero_add, hone]
    exact ⟨fun h => absurd h.2.2 (by decide), fun h => absurd h.2.1 (by omega)⟩

theorem splitStatement_stop (h : executeStep (memory (c :: t)) (t.length + 1) s 0 = none) :
    splitStatement s (c :: t) = ([], some t) := by
  rw [splitStatement, h]

theorem splitStatement_go (h : executeStep (memory (c :: t)) (t.length + 1) s 0 = some (s', k)) :
    splitStatement s (c :: t) =
      (c :: t.take k ++ (splitStatement s' (t.drop k)).1, (splitStatement s' (t.drop k)).2) := by
  rw [splitStatement, h]

/-- The text is the statement, what ends it and what is left. -/
theorem splitStatement_eq (s : Quotes × Bool) (t : List QByte) :
    match (splitStatement s t).2 with
    | none => (splitStatement s t).1 = t
    | some rest => ∃ c, t = (splitStatement s t).1 ++ c :: rest := by
  fun_induction splitStatement s t with
  | case1 => rfl
  | case2 s c t h => exact ⟨c, rfl⟩
  | case3 s c t s' k h line rest hsplit ih =>
    rw [hsplit] at ih
    cases rest with
    | none =>
      change c :: t.take k ++ line = c :: t
      have ih : line = t.drop k := ih
      rw [ih, cons_append, take_append_drop]
    | some rest =>
      obtain ⟨d, hd⟩ : ∃ d, t.drop k = line ++ d :: rest := ih
      refine ⟨d, ?_⟩
      change c :: t = c :: t.take k ++ line ++ d :: rest
      rw [append_assoc, ← hd, cons_append, take_append_drop]

/-- A statement that is ended does not depend on what is behind. -/
theorem splitStatement_append (h : splitStatement s t = (line, some rest)) (u : List QByte) :
    splitStatement s (t ++ u) = (line, some (rest ++ u)) := by
  fun_induction splitStatement s t generalizing line with
  | case1 => cases h
  | case2 s c t hs =>
    cases h
    rw [executeStep_eq_none_iff] at hs
    exact splitStatement_stop (executeStep_eq_none_iff.2 hs)
  | case3 s c t s' k hs line' rest' hsplit ih =>
    cases h
    have hk := skip_le_length hs
    cases t with
    | nil =>
      -- there is nothing in which the statement could end
      rw [drop_nil, splitStatement] at hsplit
      cases hsplit
    | cons d t =>
      rw [cons_append, splitStatement_go ((executeStep_append d).trans hs), drop_append_of_le_length hk,
        take_append_of_le_length hk, ih hsplit]

/-- A newline ends a statement that is not ended. -/
theorem splitStatement_newline (h : splitStatement s t = (line, none)) (u : List QByte) :
    splitStatement s (t ++ newline :: u) = (line, some u) := by
  fun_induction splitStatement s t generalizing line with
  | case1 =>
    cases h
    exact splitStatement_stop (executeStep_eq_none_iff.2 (.inl rfl))
  | case2 s c t hs => cases h
  | case3 s c t s' k hs line' rest' hsplit ih =>
    cases h
    have hk := skip_le_length hs
    have hstep : executeStep (memory (c :: (t ++ newline :: u))) ((t ++ newline :: u).length + 1) s 0 = some (s', k) := by
      cases t with
      | nil => exact executeStep_newline.trans hs
      | cons d t => exact (executeStep_append d).trans hs
    rw [cons_append, splitStatement_go hstep, drop_append_of_le_length hk, take_append_of_le_length hk, ih hsplit]

theorem splitStatement_length (h : splitStatement s t = (line, some rest)) : rest.length < t.length := by
  have heq := splitStatement_eq s t
  rw [h] at heq
  obtain ⟨d, hd⟩ := heq
  rw [hd, length_append, length_cons]
  omega

end Split

/-- The statements of a text, empty ones as well. -/
def statements (t : List QByte) : List (List QByte) :=
  if t = [] then []
  else match _h : splitStatement (.none, false) t with
    | (line, none) => [line]
    | (line, some rest) => line :: statements rest
termination_by t.length
decreasing_by exact splitStatement_length _h

/-- What a text says to do: an empty statement does nothing. -/
def commands (t : List QByte) : List (List QByte) := (statements t).filter (· ≠ [])

/-- The last statement of a text is ended. -/
inductive Ended : List QByte → Prop
  | nil : Ended []
  | next {t line rest} (h : splitStatement (.none, false) t = (line, some rest)) (hrest : Ended rest) : Ended t

section Statements

variable {t u line rest : List QByte}

theorem statements_nil : statements [] = [] := by
  rw [statements, if_pos rfl]

theorem statements_of_none (h : t ≠ []) (hs : splitStatement (.none, false) t = (line, none)) :
    statements t = [line] := by
  rw [statements, if_neg h]
  split <;> rename_i hs' <;> cases hs.symm.trans hs'
  rfl

theorem statements_of_some (hs : splitStatement (.none, false) t = (line, some rest)) :
    statements t = line :: statements rest := by
  have h : t ≠ [] := by
    rintro rfl
    exact absurd (splitStatement_length hs) (Nat.not_lt_zero _)
  rw [statements, if_neg h]
  split <;> rename_i hs' <;> cases hs.symm.trans hs'
  rfl

theorem commands_of_some (hs : splitStatement (.none, false) t = (line, some rest)) :
    commands t = [line].filter (· ≠ []) ++ commands rest := by
  rw [commands, statements_of_some hs, ← singleton_append, filter_append, commands]

theorem commands_nil : commands [] = [] := by
  rw [commands, statements_nil, filter_nil]

/-- A newline behind a text ends its last statement. -/
theorem commands_newline (t u : List QByte) : commands (t ++ newline :: u) = commands t ++ commands u := by
  induction hn : t.length using Nat.strong_induction_on generalizing t with
  | _ n ih =>
    cases hs : splitStatement (.none, false) t with
    | mk line rest =>
      cases rest with
      | some rest =>
        have hnext := ih _ (hn ▸ splitStatement_length hs) rest rfl
        rw [commands_of_some hs, commands_of_some (splitStatement_append hs _), hnext, append_assoc]
      | none =>
        rw [commands_of_some (splitStatement_newline hs u)]
        congr 1
        by_cases ht : t = []
        · subst ht
          rw [splitStatement] at hs
          cases hs
          exact commands_nil.symm
        · rw [commands, statements_of_none ht hs]

/-- Text behind statements that are ended. -/
theorem commands_append (h : Ended t) (u : List QByte) : commands (t ++ u) = commands t ++ commands u := by
  induction h with
  | nil => rw [commands_nil, nil_append, nil_append]
  | next hs _ ih => rw [commands_of_some hs, commands_of_some (splitStatement_append hs u), ih, append_assoc]

end Statements

section Execute

variable {text : Mem QByte} {cursize i n : ℕ} {s : Quotes × Bool} {c : QByte} {t : List QByte} {buf : Sizebuf}

/-- A round on a buffer is one on the text that is left, which does not end in a backslash. -/
theorem executeStep_slice (hslice : text.slice i (t.length + 1) = c :: t) (hsize : i + (t.length + 1) = cursize)
    (hlast : ¬[backslash] <:+ c :: t) :
    executeStep text cursize s i = executeStep (memory (c :: t)) (t.length + 1) s 0 := by
  rw [Mem.slice_succ] at hslice
  obtain ⟨hc, ht⟩ := List.cons.inj hslice
  have hnext : t ≠ [] → text (i + 1) = memory (c :: t) (0 + 1) := by
    intro hne
    cases t with
    | nil => exact absurd rfl hne
    | cons d t =>
      rw [length_cons, Mem.slice_succ] at ht
      exact (List.cons.inj ht).1
  have hback : text i = backslash → t ≠ [] := by
    rintro hb rfl
    have hsuffix : [backslash] <:+ [text i] := hb ▸ suffix_rfl
    exact hlast (hc ▸ hsuffix)
  refine executeStep_congr hc (fun hb => ?_) (fun hb => ?_) ?_
  · rw [hnext (hback hb)]
  · rw [hnext (hback hb)]
  · by_cases ht : t = []
    · subst ht
      simp [StartsComment, ← hsize]
    · rw [StartsComment, StartsComment, hc, hnext ht]
      exact and_congr Iff.rfl (and_congr (by omega) Iff.rfl)

/-- The end that the scan finds is the one of the statement. -/
theorem run_executeStep (hslice : text.slice i t.length = t) (hsize : i + t.length = cursize)
    (hlast : ¬[backslash] <:+ t) (hn : t.length ≤ n) :
    Scan.run (executeStep text cursize) cursize n i s = i + (splitStatement s t).1.length := by
  induction n generalizing i s t with
  | zero =>
    obtain rfl := length_eq_zero_iff.1 (Nat.le_zero.1 hn)
    rw [splitStatement]
    rfl
  | succ n ih =>
    cases t with
    | nil =>
      rw [Scan.run_of_le (by simpa using hsize.ge), splitStatement]
      rfl
    | cons c t =>
      rw [length_cons] at hslice hsize hn
      have hstep := executeStep_slice (s := s) hslice hsize hlast
      cases hs : executeStep (memory (c :: t)) (t.length + 1) s 0 with
      | none =>
        rw [Scan.run_stop (hstep.trans hs), splitStatement_stop hs]
        rfl
      | some r =>
        obtain ⟨s', k⟩ := r
        have hk := skip_le_length hs
        have hlen : k + (t.drop k).length = t.length := by
          rw [length_drop]
          omega
        have hdrop : text.slice (i + 1 + k) (t.drop k).length = t.drop k := by
          rw [Mem.slice_succ] at hslice
          have ht := (List.cons.inj hslice).2
          rw [← hlen, Mem.slice_add] at ht
          exact (append_inj (ht.trans (take_append_drop k t).symm)
            (by rw [Mem.length_slice, length_take, Nat.min_eq_left hk])).2
        have hlast' : ¬[backslash] <:+ t.drop k := fun hb =>
          hlast (hb.trans ((drop_suffix k t).trans (suffix_cons c t)))
        rw [Scan.run_step (by omega) (hstep.trans hs), splitStatement_go hs, ih hdrop (by omega) hlast' (by omega)]
        simp only [length_append, length_cons, length_take, Nat.min_eq_left hk]
        omega

theorem Deleted.contents {rest : Sizebuf} (h : Deleted buf i rest) :
    rest.contents = buf.data.slice (i + 1) rest.cursize := by
  refine ext_getElem (by simp) fun j hj _ => ?_
  rw [Sizebuf.length_contents] at hj
  simp only [Sizebuf.contents, Mem.getElem_slice, Nat.zero_add]
  exact h.data j hj

/-- A round executes the first statement. -/
theorem executeNext_split (hzero : 0 ∉ buf.contents) (hlast : ¬[backslash] <:+ buf.contents) :
    ∃ rest, executeNext buf = some ((splitStatement (.none, false) buf.contents).1, rest) ∧
      rest.contents = ((splitStatement (.none, false) buf.contents).2).getD [] := by
  have hend : executeEnd buf = (splitStatement (.none, false) buf.contents).1.length := by
    have hslice : buf.data.slice 0 buf.contents.length = buf.contents := by rw [Sizebuf.length_contents]; rfl
    have hrun := run_executeStep (s := (.none, false)) hslice (Nat.zero_add _) hlast le_rfl
    rwa [Nat.zero_add, Sizebuf.length_contents] at hrun
  have heq := splitStatement_eq (.none, false) buf.contents
  cases hs : splitStatement (.none, false) buf.contents with
  | mk line r =>
    rw [hs] at hend heq
    have hline {x : List QByte} (hx : buf.contents = line ++ x) : cstr (buf.data.slice 0 line.length) = line := by
      have hlen := congrArg List.length hx
      rw [Sizebuf.length_contents, length_append] at hlen
      have hslice : buf.data.slice 0 line.length ++ buf.data.slice (0 + line.length) x.length = line ++ x := by
        rw [← Mem.slice_add, ← hlen]
        exact hx
      rw [(append_inj hslice (Mem.length_slice _ _ _)).1]
      exact cstr_of_notMem fun h => hzero (hx ▸ mem_append_left _ h)
    cases r with
    | none =>
      have hwhole : line = buf.contents := heq
      have hall : line.length = buf.cursize := by rw [hwhole, Sizebuf.length_contents]
      refine ⟨{ buf with cursize := 0 }, ?_, rfl⟩
      rw [executeNext, deleteText, hend, if_pos hall, map_some, hline (by rw [hwhole, append_nil])]
    | some x =>
      obtain ⟨c, hc⟩ : ∃ c, buf.contents = line ++ c :: x := heq
      have hlen : buf.cursize = line.length + 1 + x.length := by
        rw [← Sizebuf.length_contents, hc, length_append, length_cons]
        omega
      obtain ⟨rest, hrest⟩ := deleteText_of_le (show line.length ≤ buf.cursize by omega)
      have hx : buf.data.slice (line.length + 1) x.length = x := by
        have hslice : buf.data.slice 0 (line.length + 1) ++ buf.data.slice (0 + (line.length + 1)) x.length =
            line ++ [c] ++ x := by
          rw [← Mem.slice_add, ← hlen, append_assoc, singleton_append]
          exact hc
        have hright := (append_inj hslice (by simp)).2
        rwa [Nat.zero_add] at hright
      refine ⟨rest, ?_, ?_⟩
      · rw [executeNext, hend, hrest.deleteText, map_some, hline hc]
      · have hsize : rest.cursize = x.length := by
          rw [hrest.cursize]
          omega
        rw [hrest.contents, hsize, hx]
        rfl

/-- **The statements of a text are what `Cbuf_ExecuteLevel` executes of it.** At the end of the text there
is no backslash, behind which the source would look. -/
theorem executeAll_statements (n : ℕ) (hn : buf.cursize ≤ n) (hzero : 0 ∉ buf.contents)
    (hlast : ¬[backslash] <:+ buf.contents) :
    ∃ drained, executeAll n buf = some (statements buf.contents, drained) := by
  have of_empty {n : ℕ} {buf : Sizebuf} (hempty : buf.cursize = 0) :
      ∃ drained, executeAll n buf = some (statements buf.contents, drained) :=
    ⟨buf, by rw [executeAll_of_empty hempty, Sizebuf.contents, hempty, Mem.slice_zero, statements_nil]⟩
  induction n generalizing buf with
  | zero => exact of_empty (Nat.le_zero.1 hn)
  | succ n ih =>
    by_cases hempty : buf.cursize = 0
    · exact of_empty hempty
    obtain ⟨rest, hnext, hrest⟩ := executeNext_split hzero hlast
    have heq := splitStatement_eq (.none, false) buf.contents
    cases hs : splitStatement (.none, false) buf.contents with
    | mk line r =>
      rw [hs] at hnext hrest heq
      cases r with
      | none =>
        have hdone : rest.cursize = 0 := by
          rw [← Sizebuf.length_contents, hrest]
          rfl
        have hne : buf.contents ≠ [] := fun h => hempty (by rw [← Sizebuf.length_contents, h, length_nil])
        refine ⟨rest, ?_⟩
        rw [executeAll, if_neg hempty, hnext, bind_some, executeAll_of_empty hdone, statements_of_none hne hs]
        rfl
      | some r =>
        obtain ⟨c, hc⟩ : ∃ c, buf.contents = line ++ c :: r := heq
        have hrest : rest.contents = r := hrest
        have hsuffix : rest.contents <:+ buf.contents := by
          rw [hrest, hc]
          exact (suffix_cons c r).trans (suffix_append _ _)
        have hshort : rest.cursize ≤ n := by
          have hlt := splitStatement_length hs
          rw [← hrest, Sizebuf.length_contents, Sizebuf.length_contents] at hlt
          omega
        obtain ⟨drained, hd⟩ := ih hshort (fun h => hzero (hsuffix.subset h)) fun h => hlast (h.trans hsuffix)
        refine ⟨drained, ?_⟩
        rw [executeAll, if_neg hempty, hnext, bind_some, hd, hrest, statements_of_some hs]
        rfl

end Execute

/-! ## What is added and inserted -/

section Add

variable {maxbuffersize : ℤ} {buf buf' : Sizebuf} {text : List QByte} {l n newmax need : ℕ}

theorem le_growLoop (hpos : 0 < newmax) (hn : need ≤ newmax + n) : need ≤ growLoop need n newmax := by
  induction n generalizing newmax with
  | zero => exact hn
  | succ n ih =>
    rw [growLoop]
    split
    · exact ih (by omega) (by omega)
    · omega

theorem allocate_contents (buf : Sizebuf) : (allocate buf).contents = buf.contents := by
  unfold allocate
  split <;> rfl

theorem allocate_maxsize_pos (buf : Sizebuf) : 0 < (allocate buf).maxsize := by
  unfold allocate
  split
  · exact Nat.zero_lt_succ _
  · omega

theorem makeRoom_contents (l : ℕ) (buf : Sizebuf) : (makeRoom l buf).contents = buf.contents := by
  unfold makeRoom
  split <;> rfl

theorem fits_makeRoom (h : 0 < buf.maxsize) : (makeRoom l buf).cursize + l ≤ (makeRoom l buf).maxsize := by
  unfold makeRoom
  split
  · have hgrow : buf.cursize + l ≤ growLoop (buf.cursize + l) (buf.cursize + l) (buf.maxsize * 2) :=
      le_growLoop (by omega) (by omega)
    exact hgrow
  · omega

/-- **Text is added behind what is there, or is refused.** -/
theorem addText_cases (maxbuffersize : ℤ) (text : List QByte) (buf : Sizebuf) :
    (Refused maxbuffersize (cstr text).length (allocate buf) ∧
      addText maxbuffersize text buf = some (true, allocate buf)) ∨
    ∃ buf', addText maxbuffersize text buf = some (false, buf') ∧ buf'.contents = buf.contents ++ cstr text := by
  unfold addText
  by_cases h : Refused maxbuffersize (cstr text).length (allocate buf)
  · exact .inl ⟨h, if_pos h⟩
  · refine .inr ⟨(makeRoom (cstr text).length (allocate buf)).append (cstr text), ?_, ?_⟩
    · simp only [if_neg h]
      rw [szWrite_run_of_fits (fits_makeRoom (allocate_maxsize_pos buf))]
      rfl
    · rw [Sizebuf.contents_append, makeRoom_contents, allocate_contents]

/-- `Cbuf_AddText` for one text after the other, unless one is refused. -/
def addTexts (maxbuffersize : ℤ) : List (List QByte) → Sizebuf → Option Sizebuf
  | [], buf => some buf
  | text :: texts, buf =>
    match addText maxbuffersize text buf with
    | some (false, buf') => addTexts maxbuffersize texts buf'
    | _ => none

theorem contents_addTexts {texts : List (List QByte)} (h : addTexts maxbuffersize texts buf = some buf') :
    buf'.contents = buf.contents ++ texts.flatMap cstr := by
  induction texts generalizing buf with
  | nil =>
    cases h
    exact (append_nil _).symm
  | cons text texts ih =>
    obtain ⟨-, hadd⟩ | ⟨buf₁, hadd, hc⟩ := addText_cases maxbuffersize text buf
    · rw [addTexts, hadd] at h
      cases h
    · rw [addTexts, hadd] at h
      rw [ih h, hc, flatMap_cons, append_assoc]

/-- **Text in pieces.** However a text is cut into the pieces that are added, the statements of the whole text are
executed. -/
theorem executeAll_addTexts {texts : List (List QByte)} (h : addTexts maxbuffersize texts buf = some buf')
    (hzero : 0 ∉ buf.contents) (hlast : ¬[backslash] <:+ buf.contents ++ texts.flatMap cstr) :
    ∃ drained, executeAll buf'.cursize buf' = some (statements (buf.contents ++ texts.flatMap cstr), drained) := by
  have hc := contents_addTexts h
  have hall : 0 ∉ buf'.contents := by
    simp only [hc, mem_append, mem_flatMap, not_or, not_exists, not_and]
    exact ⟨hzero, fun text _ hmem => by simpa using mem_takeWhile_imp hmem⟩
  rw [← hc] at hlast ⊢
  exact executeAll_statements _ le_rfl hall hlast

theorem executeAll_addTexts_two : ∃ buf' drained,
    addTexts 0 [[97], [59, 98]] (Sizebuf.bufferOf [] 0) = some buf' ∧
      executeAll buf'.cursize buf' = some (statements [97, 59, 98], drained) := by
  have h : addTexts 0 [[97], [59, 98]] (Sizebuf.bufferOf [] 0) = some _ := rfl
  obtain ⟨drained, hrun⟩ := executeAll_addTexts h (by decide) (by decide)
  exact ⟨_, drained, h, hrun⟩

theorem contents_eq_nil (h : buf.cursize = 0) : buf.contents = [] := by
  rw [Sizebuf.contents, h, Mem.slice_zero]

/-- What is refused for one character is refused for a text. -/
theorem Refused.of_one (h : Refused maxbuffersize 1 (allocate buf)) (hl : 0 < l) :
    Refused maxbuffersize l (allocate buf) := by
  obtain ⟨hfull, hmax⟩ := h
  exact ⟨by omega, hmax⟩

theorem addTextIf_cases (maxbuffersize : ℤ) (text : List QByte) (p : Bool) (buf : Sizebuf) :
    ∃ r buf', addTextIf maxbuffersize text p buf = some (r, buf') ∧
      buf'.contents = buf.contents ++ (if p = true ∧ r = false then cstr text else []) ∧
      (r = true → Refused maxbuffersize (cstr text).length (allocate buf) ∧ buf' = allocate buf) := by
  cases p with
  | true =>
    obtain ⟨href, hadd⟩ | ⟨buf', hadd, hc⟩ := addText_cases maxbuffersize text buf
    · exact ⟨true, _, hadd, by simp [allocate_contents], fun _ => ⟨href, rfl⟩⟩
    · exact ⟨false, buf', hadd, by simp [hc], nofun⟩
  | false => exact ⟨false, buf, rfl, by simp, nofun⟩

theorem allocate_allocate (buf : Sizebuf) : allocate (allocate buf) = allocate buf :=
  if_neg (allocate_maxsize_pos buf).ne'

/-- What is inserted, and what was there, each whole or refused. -/
theorem insertText_cases (maxbuffersize : ℤ) (text : List QByte) (addnl : Bool) (hzero : 0 ∉ buf.contents) :
    ∃ r buf', insertText maxbuffersize text addnl buf = some (r, buf') ∧
      buf'.contents = (if r.text = false then cstr text else []) ++
        (if addnl ∧ r.newline = false then [newline] else []) ++ (if r.rest = false then buf.contents else []) ∧
      (r.newline = true → buf.contents ≠ [] → r.rest = true) := by
  have hclear : (if buf.cursize ≠ 0 then szClear buf else buf).contents = [] := by
    split
    · rfl
    · exact contents_eq_nil (not_not.1 ‹_›)
  obtain ⟨r₁, buf₁, h₁, hc₁, -⟩ :=
    addTextIf_cases maxbuffersize text true (if buf.cursize ≠ 0 then szClear buf else buf)
  obtain ⟨r₂, buf₂, h₂, hc₂, hr₂⟩ := addTextIf_cases maxbuffersize [newline] addnl buf₁
  obtain ⟨r₃, buf₃, h₃, hc₃, -⟩ := addTextIf_cases maxbuffersize buf.contents (buf.cursize ≠ 0) buf₂
  have hadd : addText maxbuffersize text (if buf.cursize ≠ 0 then szClear buf else buf) = some (r₁, buf₁) := h₁
  refine ⟨⟨r₁, r₂, r₃⟩, buf₃, ?_, ?_, fun hnl htemp => ?_⟩
  · simp only [insertText, hadd, h₂, h₃, bind_eq_bind, bind_some]
    rfl
  · have hnl : cstr [newline] = [newline] := rfl
    rw [hc₃, hc₂, hc₁, hclear, cstr_of_notMem hzero, nil_append, hnl]
    by_cases htemp : buf.cursize = 0
    · simp [htemp, contents_eq_nil htemp]
    · simp [htemp]
  · -- the newline is refused, so is the longer text
    obtain ⟨href, hbuf₂⟩ := hr₂ hnl
    have hsize : buf.cursize ≠ 0 := fun h => htemp (contents_eq_nil h)
    have href₃ : Refused maxbuffersize (cstr buf.contents).length (allocate buf₂) := by
      rw [hbuf₂, allocate_allocate, cstr_of_notMem hzero]
      exact href.of_one (length_pos_iff.2 htemp)
    rw [addTextIf, if_pos (decide_eq_true hsize), addText, if_pos href₃] at h₃
    cases h₃
    rfl

end Add

/-- **What the buffer holds.** Text is added behind what is there, or refused. Text that is inserted is put
before it, or refused, where what was there is not refused itself; its commands come before those that were
there, if a newline is added or its last statement is ended. -/
theorem buffer_kept (maxbuffersize : ℤ) (text : List QByte) {level : ℕ} {cmdText : List Sizebuf} {buf : Sizebuf}
    (hlevel : cmdText[level]? = some buf) (hzero : 0 ∉ buf.contents) :
    (∃ r buf', cbufAddText maxbuffersize text level cmdText = some (some r, cmdText.set level buf') ∧
      buf'.contents = buf.contents ++ if r then [] else cstr text) ∧
    ∀ addnl, ∃ r buf',
      cbufInsertText maxbuffersize text level addnl cmdText = some (some r, cmdText.set level buf') ∧
      (r.rest = false →
        buf'.contents = (if r.text = false then cstr text else []) ++
          (if addnl ∧ r.newline = false then [newline] else []) ++ buf.contents ∧
        (r.text = true → commands buf'.contents = commands buf.contents) ∧
        (r.text = false → addnl = true ∨ Ended (cstr text) →
          commands buf'.contents = commands (cstr text) ++ commands buf.contents)) := by
  have hon {α : Type} {f : Sizebuf → Option (α × Sizebuf)} {r : α} {buf' : Sizebuf} (hf : f buf = some (r, buf')) :
      onLevel f level cmdText = some (some r, cmdText.set level buf') := by
    have hlt := (List.getElem?_eq_some_iff.1 hlevel).1
    rw [onLevel, if_neg (by omega), Int.toNat_natCast, hlevel]
    simp only [Option.bind_eq_bind, Option.bind_some, hf]
    rfl
  refine ⟨?_, fun addnl => ?_⟩
  · obtain ⟨-, hadd⟩ | ⟨buf', hadd, hc⟩ := addText_cases maxbuffersize text buf
    · exact ⟨true, _, hon hadd, by simp [allocate_contents]⟩
    · exact ⟨false, buf', hon hadd, by simp [hc]⟩
  · obtain ⟨r, buf', hins, hc, hnl⟩ := insertText_cases maxbuffersize text addnl hzero
    refine ⟨r, buf', hon hins, fun hrest => ?_⟩
    rw [hrest, if_pos rfl] at hc
    refine ⟨hc, fun htext => ?_, fun htext hend => ?_⟩
    · rw [hc, if_neg (by simp [htext]), List.nil_append]
      split
      · exact (commands_newline [] buf.contents).trans (by rw [commands_nil, List.nil_append])
      · rfl
    · rw [hc, if_pos htext]
      by_cases hline : addnl = true ∧ r.newline = false
      · rw [if_pos hline, List.append_assoc, List.singleton_append, commands_newline]
      · rw [if_neg hline, List.append_nil]
        rcases hend with haddnl | hend
        · -- the newline was refused, so nothing was there
          have hempty : buf.contents = [] := by
            by_contra hne
            have hlost := hnl (by simpa [haddnl] using hline) hne
            rw [hrest] at hlost
            cases hlost
          rw [hempty, commands_nil, List.append_nil, List.append_nil]
        · exact commands_append hend _

/-- Characters that the scans do not look for. -/
def Ordinary (c : QByte) : Prop :=
  c ≠ newline ∧ c ≠ quote ∧ c ≠ slash ∧ c ≠ semicolon ∧ c ≠ backslash

instance (c : QByte) : Decidable (Ordinary c) := inferInstanceAs (Decidable (_ ∧ _ ∧ _ ∧ _ ∧ _))

theorem splitStatement_ordinary {t : List QByte} (h : ∀ c ∈ t, Ordinary c) :
    splitStatement (.none, false) t = (t, none) := by
  induction t with
  | nil => rw [splitStatement]
  | cons c t ih =>
    obtain ⟨hline, hquote, hslash, hsemi, hback⟩ := h c mem_cons_self
    have hstep : executeStep (memory (c :: t)) (t.length + 1) (.none, false) 0 = some ((.none, false), 0) := by
      simp [executeStep, StartsComment, memory_zero, hline, hquote, hslash, hsemi, hback]
    rw [splitStatement_go hstep, drop_zero, ih fun d hd => h d (mem_cons_of_mem c hd)]
    rfl

/-- A word is a command. -/
theorem commands_ordinary {t : List QByte} (ht : t ≠ []) (h : ∀ c ∈ t, Ordinary c) : commands t = [t] := by
  rw [commands, statements_of_none ht (splitStatement_ordinary h)]
  simp [ht]

/-- What is inserted and what is left, by its contents. -/
def inserted (r : Option (Refusals × Sizebuf)) : Option (Refusals × List QByte) := r.map fun r => (r.1, r.2.contents)

/-- With a newline, `a` and `b` are two commands. -/
theorem buffer_kept_word : ∃ r buf',
    cbufInsertText 0 [97] 0 true [Sizebuf.bufferOf [98] 8] = some (some r, [buf']) ∧
      r = ⟨false, false, false⟩ ∧ commands buf'.contents = [[97], [98]] := by
  have hkept := buffer_kept 0 [97] (show [Sizebuf.bufferOf [98] 8][0]? = some (Sizebuf.bufferOf [98] 8) from rfl)
    (by decide)
  obtain ⟨r, buf', hins, hbuf⟩ := hkept.2 true
  have hr : r = ⟨false, false, false⟩ := by
    have hmap : (cbufInsertText 0 [97] 0 true [Sizebuf.bufferOf [98] 8]).map (·.1) =
        some (some ⟨false, false, false⟩) := by decide
    have hins' : cbufInsertText 0 [97] 0 true [Sizebuf.bufferOf [98] 8] = some (some r, [buf']) := hins
    rw [hins'] at hmap
    exact Option.some.inj (Option.some.inj hmap)
  refine ⟨r, buf', hins, hr, ?_⟩
  subst hr
  rw [(hbuf rfl).2.2 rfl (.inl rfl)]
  have ha : commands (cstr [97]) = [[97]] := commands_ordinary (by decide) (by decide)
  have hb : commands (Sizebuf.bufferOf [98] 8).contents = [[98]] := by
    rw [Sizebuf.contents_bufferOf]
    exact commands_ordinary (by decide) (by decide)
  rw [ha, hb]
  rfl

/-- Without one they are a single command. -/
theorem insertText_joins : ¬∀ (maxbuffersize : ℤ) (text : List QByte) (addnl : Bool) (buf : Sizebuf),
    0 ∉ buf.contents → ∃ r buf', insertText maxbuffersize text addnl buf = some (r, buf') ∧
      (commands buf'.contents = commands (cstr text) ++ commands buf.contents ∨
        (r.text ∨ r.newline ∨ r.rest) ∧ buf'.contents = buf.contents) := by
  intro h
  obtain ⟨r, buf', hins, hor⟩ := h 0 [97] false (Sizebuf.bufferOf [98] 8) (by decide)
  have hboth : inserted (insertText 0 [97] false (Sizebuf.bufferOf [98] 8)) =
      some (⟨false, false, false⟩, [97, 98]) := by decide
  rw [hins] at hboth
  obtain ⟨hr, hc⟩ := Prod.mk.inj (Option.some.inj hboth)
  have hr : r = ⟨false, false, false⟩ := hr
  have hc : buf'.contents = [97, 98] := hc
  have ha : commands (cstr [97]) = [[97]] := commands_ordinary (by decide) (by decide)
  have hb : commands [98] = [[98]] := commands_ordinary (by decide) (by decide)
  have hab : commands [97, 98] = [[97, 98]] := commands_ordinary (by decide) (by decide)
  rw [hc, hr, Sizebuf.contents_bufferOf, ha, hb, hab] at hor
  revert hor
  decide

/-- A full buffer that may not grow loses what it held. -/
theorem insertText_loses : inserted (insertText 3 [97] true (Sizebuf.bufferOf [98, 98] 1)) =
    some (⟨false, false, true⟩, [97, newline]) := by decide

end Cbuf

end FteQuake
