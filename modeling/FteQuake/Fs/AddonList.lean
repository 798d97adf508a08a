import FteQuake.Common.Infobuf
import Mathlib.Data.List.DropRight
import Mathlib.Data.List.Flatten

/-!
# The list of addons

`FS_Addon_SaveList` of `fs.c`, which writes `fs_addons.txt` anew with a line more or less. The buffer of the new text
is sized from the old one, and what does not fit is cut off.

`saveList_eq_take` says that what is written is what should be (`listed`), cut off there; `saveList_eq_iff` when nothing
is. Of a list that the code wrote itself nothing is (`saveList_edits`).
-/

namespace FteQuake

open List Option

namespace AddonList

def newline : QByte := 0x0a

/-- What is trimmed from the end of a line. -/
def blank (c : QByte) : Bool := c = 0x20 ∨ c = 0x09 ∨ c = 0x0d

/-- A letter as `Q_strncasecmp` compares it. -/
def toUpper (c : QByte) : QByte := if 0x61 ≤ c ∧ c ≤ 0x7a then c - 0x20 else c

/-- `!Q_strcasecmp`. -/
def strcaseeq (line : List QByte) (s : CString) : Bool := line.map toUpper = s.1.map toUpper

/-! ## The code -/

/-- `Q_strncatz` to the end of `out`, in a buffer of `outsize` bytes. -/
def strncatz (outsize : ℕ) (out s : List QByte) : List QByte := out ++ s.take (outsize - out.length - 1)

variable (add del : Option CString) (outsize : ℕ)

/-- One line: what is written, and whether it is the line to add. -/
def saveLine (body : List QByte) (st : List QByte × Bool) : List QByte × Bool :=
  let line := body.rdropWhile blank
  if line = [] then st
  else if del.any (strcaseeq line) then st
  else (strncatz outsize (strncatz outsize st.1 line) [newline], st.2 || add.any (strcaseeq line))

/-- The loop over the lines. -/
def saveLines (line : List QByte) (st : List QByte × Bool) : List QByte × Bool :=
  if line = [] then st
  else
    match _hnl : line.dropWhile (· ≠ newline) with
    | [] => saveLine add del outsize line st
    | _ :: nl => saveLines nl (saveLine add del outsize (line.takeWhile (· ≠ newline)) st)
termination_by line.length
decreasing_by
  have hlen := (List.dropWhile_suffix (l := line) (· ≠ newline)).length_le
  rw [_hnl, List.length_cons] at hlen
  omega

/-- `FS_Addon_SaveList`: the text of the file that is written. -/
def saveList (file : Option (List QByte)) : List QByte :=
  let outsize := file.elim 0 List.length + add.elim 0 CString.strlen + 2
  let st := saveLines add del outsize (CString.ofBytes (file.getD [])).1 ([], false)
  match add with
  | some add => if st.2 then st.1 else strncatz outsize (strncatz outsize st.1 add.1) [newline]
  | none => st.1

/-! ## The list as it should be -/

/-- A line stays, with its blanks trimmed. -/
def Stays (line : List QByte) : Prop := line ≠ [] ∧ del.any (strcaseeq line) = false

instance (line : List QByte) : Decidable (Stays del line) := inferInstanceAs (Decidable (_ ∧ _))

/-- The lines of a text that stay. -/
def kept (text : List QByte) : List (List QByte) :=
  ((text.splitOn newline).map (List.rdropWhile blank)).filter (Stays del ·)

/-- No line that stays is the one to add. -/
def added (text : List QByte) : List (List QByte) :=
  match add with
  | some add => if (kept del text).any (strcaseeq · add) then [] else [add.1]
  | none => []

/-- Lines, each with a newline. -/
def unlines (ls : List (List QByte)) : List QByte := ls.flatMap (· ++ [newline])

/-- The text that should be written. -/
def listed (text : List QByte) : List QByte := unlines (kept del text ++ added add del text)

variable {add del outsize} {text body rest : List QByte} {ls : List (List QByte)} {had : Bool}

/-! ## What is written -/

theorem unlines_append (ls ls' : List (List QByte)) : unlines (ls ++ ls') = unlines ls ++ unlines ls' :=
  flatMap_append

/-- Appending with a cut is appending and then a cut. -/
theorem strncatz_take (s : List QByte) :
    strncatz outsize (text.take (outsize - 1)) s = (text ++ s).take (outsize - 1) := by
  rw [strncatz, take_append, length_take]
  congr 2
  omega

/-- A line as it stays, if it does. -/
def keptLine (del : Option CString) (body : List QByte) : List (List QByte) :=
  if Stays del (body.rdropWhile blank) then [body.rdropWhile blank] else []

theorem kept_line (h : newline ∉ body) : kept del body = keptLine del body := by
  rw [kept, splitOn_eq_singleton h, keptLine]
  by_cases hstays : Stays del (body.rdropWhile blank) <;> simp [hstays]

theorem kept_append (h : newline ∉ body) (rest : List QByte) :
    kept del (body ++ newline :: rest) = keptLine del body ++ kept del rest := by
  rw [← kept_line h, kept, kept, kept, splitOn_append_cons_self, map_append, filter_append]

theorem kept_nil : kept del [] = [] := by
  rw [kept_line (not_mem_nil), keptLine, if_neg]
  exact fun h => h.1 rfl

theorem saveLine_spec (body : List QByte) (ls : List (List QByte)) (had : Bool) :
    saveLine add del outsize body ((unlines ls).take (outsize - 1), had) =
      ((unlines (ls ++ keptLine del body)).take (outsize - 1),
        had || add.any fun add => (keptLine del body).any (strcaseeq · add)) := by
  unfold saveLine keptLine
  dsimp only
  by_cases hstays : Stays del (body.rdropWhile blank)
  · rw [if_neg hstays.1, if_neg (by simp [hstays.2]), if_pos hstays, strncatz_take, strncatz_take, unlines_append]
    cases add <;> simp [unlines]
  · rw [if_neg hstays]
    split_ifs with hempty hdel
    · cases add <;> simp
    · cases add <;> simp
    · exact absurd ⟨hempty, by simpa using hdel⟩ hstays

theorem saveLines_spec (text : List QByte) (ls : List (List QByte)) (had : Bool) :
    saveLines add del outsize text ((unlines ls).take (outsize - 1), had) =
      ((unlines (ls ++ kept del text)).take (outsize - 1),
        had || add.any fun add => (kept del text).any (strcaseeq · add)) := by
  induction hn : text.length using Nat.strong_induction_on generalizing text ls had with
  | _ n ih =>
    unfold saveLines
    split_ifs with hempty
    · rw [hempty, kept_nil]
      cases add <;> simp
    have htext : text.takeWhile (· ≠ newline) ++ text.dropWhile (· ≠ newline) = text := takeWhile_append_dropWhile
    have hbody : newline ∉ text.takeWhile (· ≠ newline) := fun h => by simpa using mem_takeWhile_imp h
    split
    · rename_i hnl
      have hline : newline ∉ text := by
        rw [hnl, append_nil] at htext
        rwa [htext] at hbody
      rw [saveLine_spec, kept_line hline]
    · rename_i c nl hnl
      have hc : c = newline := by
        have hhead := head?_dropWhile_not (· ≠ newline) text
        rw [hnl] at hhead
        simpa using hhead
      subst hc
      have hlt : nl.length < text.length := by
        have hlen := congrArg List.length htext
        rw [hnl, length_append, length_cons] at hlen
        omega
      rw [saveLine_spec, ih nl.length (hn ▸ hlt) nl _ _ rfl]
      conv_rhs => rw [← htext, hnl, kept_append hbody]
      cases add <;> simp [Bool.or_assoc]

/-- What is written is the list as it should be, as far as the buffer goes. -/
theorem saveList_eq_take (add del : Option CString) (file : Option (List QByte)) :
    saveList add del file =
      (listed add del (CString.ofBytes (file.getD [])).1).take
        (file.elim 0 List.length + add.elim 0 CString.strlen + 1) := by
  set text := (CString.ofBytes (file.getD [])).1
  set outsize := file.elim 0 List.length + add.elim 0 CString.strlen + 2 with hsize
  have hlines : saveLines add del outsize text ([], false) = _ := saveLines_spec text [] false
  unfold saveList listed
  dsimp only
  rw [← hsize, hlines]
  cases add with
  | none =>
    rw [nil_append, added, append_nil]
    rfl
  | some add =>
    simp only [nil_append, Bool.false_or, any_some, added]
    split_ifs
    · rw [append_nil]
      rfl
    · rw [strncatz_take, strncatz_take, unlines_append, show unlines [add.1] = add.1 ++ [newline] by simp [unlines],
        append_assoc]
      rfl

/-! ## The buffer -/

/-- Nothing of a line goes. -/
def Untouched (del : Option CString) (line : List QByte) : Prop := Stays del line ∧ line.rdropWhile blank = line

theorem length_unlines (ls : List (List QByte)) : (unlines ls).length = (ls.map (·.length + 1)).sum := by
  induction ls with
  | nil => rfl
  | cons l ls ih =>
    rw [show unlines (l :: ls) = l ++ [newline] ++ unlines ls from rfl, length_append, length_append, ih]
    simp

/-- The lines of a text, each with a newline, are the text with one more. -/
theorem unlines_splitOn (text : List QByte) : unlines (text.splitOn newline) = text ++ [newline] := by
  induction text with
  | nil => rfl
  | cons c text ih =>
    rw [splitOn_cons_eq_if_modifyHead]
    split_ifs with hc
    · rw [show unlines ([] :: text.splitOn newline) = newline :: unlines (text.splitOn newline) from rfl, ih,
        eq_of_beq hc]
      rfl
    · obtain ⟨line, ls, hls⟩ := exists_cons_of_ne_nil (splitOn_ne_nil newline text)
      rw [hls] at ih ⊢
      rw [modifyHead_cons, show unlines ((c :: line) :: ls) = c :: unlines (line :: ls) from rfl, ih]
      rfl

/-- A line gets no longer, and keeps its length just if it is untouched. -/
theorem length_keptLine (del : Option CString) (line : List QByte) :
    (unlines (keptLine del line)).length ≤ line.length + 1 ∧
      ((unlines (keptLine del line)).length = line.length + 1 ↔ Untouched del line) := by
  have hpre : line.rdropWhile blank <+: line := rdropWhile_prefix blank line
  have hle := hpre.length_le
  rw [length_unlines, keptLine, Untouched]
  split_ifs with hstays
  · simp only [map_cons, map_nil, sum_cons, sum_nil]
    refine ⟨by omega, fun h => ?_, fun h => by rw [h.2, Nat.add_zero]⟩
    have heq : line.rdropWhile blank = line := hpre.eq_of_length (by omega)
    rw [heq] at hstays
    exact ⟨hstays, heq⟩
  · refine ⟨by simp, fun h => by simp at h, fun h => absurd ?_ hstays⟩
    rw [h.2]
    exact h.1

theorem kept_eq_flatMap (text : List QByte) : kept del text = (text.splitOn newline).flatMap (keptLine del) := by
  rw [kept]
  induction text.splitOn newline with
  | nil => rfl
  | cons line ls ih =>
    rw [flatMap_cons, ← ih, map_cons, filter_cons, keptLine]
    by_cases hstays : Stays del (line.rdropWhile blank) <;> simp [hstays]

theorem length_kept_lines (ls : List (List QByte)) :
    (unlines (ls.flatMap (keptLine del))).length ≤ (unlines ls).length ∧
      ((unlines (ls.flatMap (keptLine del))).length = (unlines ls).length ↔ ∀ line ∈ ls, Untouched del line) := by
  induction ls with
  | nil => simp
  | cons line ls ih =>
    obtain ⟨hline, hlineiff⟩ := length_keptLine del line
    have hcons : (unlines (line :: ls)).length = line.length + 1 + (unlines ls).length := by
      rw [length_unlines, length_unlines, map_cons, sum_cons]
    rw [flatMap_cons, unlines_append, length_append, hcons, forall_mem_cons, ← hlineiff, ← ih.2]
    omega

theorem length_kept (del : Option CString) (text : List QByte) :
    (unlines (kept del text)).length ≤ text.length + 1 ∧
      ((unlines (kept del text)).length = text.length + 1 ↔ ∀ line ∈ text.splitOn newline, Untouched del line) := by
  have hlen : (unlines (text.splitOn newline)).length = text.length + 1 := by simp [unlines_splitOn]
  rw [kept_eq_flatMap, ← hlen]
  exact length_kept_lines _

/-- The added line needs the last byte of the buffer: there is one, and nothing of the text goes. -/
def Overflows (add del : Option CString) (text : List QByte) : Prop :=
  (∃ add', add = some add' ∧ ∀ line ∈ text.splitOn newline, strcaseeq line add' = false) ∧
    ∀ line ∈ text.splitOn newline, Untouched del line

theorem kept_of_untouched (h : ∀ line ∈ text.splitOn newline, Untouched del line) :
    kept del text = text.splitOn newline := by
  rw [kept_eq_flatMap]
  generalize text.splitOn newline = ls at h ⊢
  induction ls with
  | nil => rfl
  | cons line ls ih =>
    obtain ⟨hline, hls⟩ := forall_mem_cons.mp h
    rw [flatMap_cons, ih hls, keptLine, hline.2, if_pos hline.1]
    rfl

theorem length_listed_le_iff (text : List QByte) :
    (listed add del text).length ≤ text.length + add.elim 0 CString.strlen + 1 ↔ ¬ Overflows add del text := by
  obtain ⟨hle, hiff⟩ := length_kept del text
  rw [listed, unlines_append, length_append]
  cases add with
  | none => simpa [added, unlines, Overflows] using hle
  | some add =>
    simp only [added, Option.elim, Overflows, Option.some.injEq, exists_eq_left']
    split_ifs with hhad
    · refine iff_of_true ?_ ?_
      · rw [show unlines [] = [] from rfl, length_nil]
        omega
      · rintro ⟨hnone, hall⟩
        rw [kept_of_untouched hall, List.any_eq_true] at hhad
        obtain ⟨line, hline, heq⟩ := hhad
        rw [hnone line hline] at heq
        cases heq
    · have hadd : (unlines [add.1]).length = add.strlen + 1 := by simp [unlines, CString.strlen]
      rw [hadd]
      constructor
      · rintro hfits ⟨-, hall⟩
        have := hiff.mpr hall
        omega
      · intro hnot
        by_contra hbig
        have hall := hiff.mp (by omega)
        refine hnot ⟨fun line hline => ?_, hall⟩
        rw [kept_of_untouched hall, List.any_eq_true] at hhad
        exact Bool.eq_false_iff.mpr fun heq => hhad ⟨line, hline, heq⟩

/-! ## Texts with a NUL -/

theorem mem_unlines {c : QByte} : c ∈ unlines ls ↔ ∃ line ∈ ls, c ∈ line ∨ c = newline := by
  simp [unlines]

theorem toUpper_eq_zero {c : QByte} : toUpper c = 0 ↔ c = 0 := by
  unfold toUpper
  split_ifs with h
  · constructor <;> intro h0 <;> bv_omega
  · rfl

/-- A line with a NUL is no C string. -/
theorem strcaseeq_of_mem {line : List QByte} (h : 0 ∈ line) (s : CString) : strcaseeq line s = false := by
  rw [strcaseeq, decide_eq_false_iff_not]
  intro heq
  have hmem : (0 : QByte) ∈ s.1.map toUpper := heq ▸ mem_map.mpr ⟨0, h, rfl⟩
  obtain ⟨c, hc, h0⟩ := mem_map.mp hmem
  exact s.2 (toUpper_eq_zero.mp h0 ▸ hc)

/-- The list keeps a NUL. -/
theorem zero_mem_listed (h : 0 ∈ text) : 0 ∈ listed add del text := by
  have hlines : (0 : QByte) ∈ unlines (text.splitOn newline) := by
    rw [unlines_splitOn]
    exact mem_append_left _ h
  obtain ⟨line, hline, h0 | h0⟩ := mem_unlines.mp hlines
  · have htrim : 0 ∈ line.rdropWhile blank := by
      rw [← rdropWhile_append_rtakeWhile (p := blank) (l := line), mem_append] at h0
      refine h0.resolve_right fun h0 => ?_
      exact absurd (mem_rtakeWhile_imp h0) (by decide)
    have hstays : Stays del (line.rdropWhile blank) := by
      refine ⟨ne_nil_of_mem htrim, ?_⟩
      cases del with
      | none => rfl
      | some del => exact strcaseeq_of_mem htrim del
    refine mem_unlines.mpr ⟨line.rdropWhile blank, mem_append_left _ ?_, .inl htrim⟩
    rw [kept, mem_filter]
    exact ⟨mem_map_of_mem hline, decide_eq_true hstays⟩
  · exact absurd h0 (by decide)

/-- What is written has none. -/
theorem zero_notMem_saveList (add del : Option CString) (file : Option (List QByte)) : 0 ∉ saveList add del file := by
  rw [saveList_eq_take]
  intro h
  obtain ⟨line, hline, h0 | h0⟩ := mem_unlines.mp (mem_of_mem_take h)
  · rcases mem_append.mp hline with hkept | hadded
    · obtain ⟨l, hl, rfl⟩ := mem_map.mp (mem_filter.mp hkept).1
      have hmem : (0 : QByte) ∈ (CString.ofBytes (file.getD [])).1 ++ [newline] := by
        rw [← unlines_splitOn]
        exact mem_unlines.mpr ⟨l, hl, .inl (( rdropWhile_prefix blank l).subset h0)⟩
      rcases mem_append.mp hmem with hmem | hmem
      · exact (CString.ofBytes (file.getD [])).2 hmem
      · exact absurd (mem_singleton.mp hmem) (by decide)
    · cases add with
      | none => cases hadded
      | some add =>
        simp only [added] at hadded
        split_ifs at hadded
        · cases hadded
        · rw [mem_singleton.mp hadded] at h0
          exact add.2 h0
  · exact absurd h0 (by decide)

/-- The list is written as it should be just if the old one is a text and the new one is not a byte too long. -/
theorem saveList_eq_iff (add del : Option CString) (file : Option (List QByte)) :
    saveList add del file = listed add del (file.getD []) ↔
      0 ∉ file.getD [] ∧ ¬ Overflows add del (file.getD []) := by
  by_cases h0 : 0 ∈ file.getD []
  · refine iff_of_false (fun heq => ?_) (fun h => h.1 h0)
    exact zero_notMem_saveList add del file (heq ▸ zero_mem_listed h0)
  · have hlen : file.elim 0 List.length = (file.getD []).length := by cases file <;> rfl
    rw [saveList_eq_take, CString.ofBytes_eq h0, List.take_eq_self_iff, hlen, length_listed_le_iff]
    exact (and_iff_right h0).symm

/-- Two addons without a newline at the end. The third one, added, gets none. -/
theorem saveList_cut : saveList (some ⟨[0x63], by decide⟩) none (some [0x61, 0x0a, 0x62]) ≠
    listed (some ⟨[0x63], by decide⟩) none [0x61, 0x0a, 0x62] := by
  rw [saveList_eq_take]
  decide

/-! ## Many edits -/

/-- A line as the code writes it. -/
def Written (line : List QByte) : Prop := newline ∉ line ∧ 0 ∉ line ∧ Untouched none line

/-- The lines without the one to delete, and with the one to add. -/
def edit (ls : List (List QByte)) (e : Option CString × Option CString) : List (List QByte) :=
  let ls := ls.filter fun line => !e.2.any (strcaseeq line)
  match e.1 with
  | some add => if ls.any (strcaseeq · add) then ls else ls ++ [add.1]
  | none => ls

section Edits

variable (h : ∀ line ∈ ls, Written line)
include h

theorem kept_unlines : kept del (unlines ls) = ls.filter fun line => !del.any (strcaseeq line) := by
  induction ls with
  | nil => exact kept_nil
  | cons line ls ih =>
    obtain ⟨⟨hline, -, hstays, htrim⟩, hls⟩ := forall_mem_cons.1 h
    rw [show unlines (line :: ls) = line ++ newline :: unlines ls by simp [unlines], kept_append hline, ih hls, keptLine,
      htrim, filter_cons]
    cases hdel : del.any (strcaseeq line) <;> simp [Stays, hstays.1, hdel]

/-- A text that was written ends with a newline, so there is room for one more line. -/
theorem saveList_unlines : saveList add del (some (unlines ls)) = unlines (edit ls (add, del)) := by
  have hfits : ¬Overflows add del (unlines ls) := fun hover => by
    have hlen := congrArg length (unlines_splitOn (unlines ls))
    rw [← kept_of_untouched hover.2, kept_unlines h] at hlen
    exact absurd (hlen ▸ (filter_sublist.flatMap (· ++ [newline])).length_le) (by simp [unlines])
  have h0 : 0 ∉ unlines ls := fun h0 => by
    obtain ⟨line, hline, h0 | ⟨⟨⟩⟩⟩ := mem_unlines.1 h0
    exact (h line hline).2.1 h0
  rw [saveList_eq_take, getD_some, CString.ofBytes_eq h0]
  refine (take_of_length_le ((length_listed_le_iff _).2 hfits)).trans ?_
  rw [listed, kept_unlines h, edit]
  cases add with
  | none => rw [added, append_nil]
  | some add =>
    simp only [added, kept_unlines h]
    split_ifs <;> simp

theorem edit_written {e : Option CString × Option CString} (hadd : ∀ add ∈ e.1, Written add.1) :
    ∀ line ∈ edit ls e, Written line := by
  unfold edit
  grind

/-- **The list over many edits.** From a list that the code wrote, the empty one to begin with, every edit adds and
deletes its lines and nothing else is lost. -/
theorem saveList_edits (edits : List (Option CString × Option CString))
    (hadd : ∀ e ∈ edits, ∀ add ∈ e.1, Written add.1) :
    edits.foldl (fun file e => saveList e.1 e.2 (some file)) (unlines ls) = unlines (edits.foldl edit ls) := by
  induction edits generalizing ls with
  | nil => rfl
  | cons e edits ih =>
    obtain ⟨he, hedits⟩ := forall_mem_cons.1 hadd
    rw [foldl_cons, saveList_unlines h, foldl_cons]
    exact ih (edit_written h he) hedits

end Edits

/-- An addon is loaded, and then it is unloaded in the other case. -/
theorem saveList_edits_two : [(some ⟨[0x63], by decide⟩, none), (none, some ⟨[0x43], by decide⟩)].foldl
    (fun file e => saveList e.1 e.2 (some file)) (unlines [[0x61]]) = [0x61, 0x0a] :=
  @saveList_edits [[0x61]] (by simp [Written, Untouched, Stays]; decide) _
    (by simp [Written, Untouched, Stays]; decide)

end AddonList

end FteQuake
