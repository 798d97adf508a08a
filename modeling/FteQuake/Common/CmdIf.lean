import FteQuake.Common.Sizebuf
import FteQuake.Lib.FirstInfix
import FteQuake.Lib.Strtod

/-!
# The statements of an `if`

`Cmd_if_f` of `cmd.c` behind its condition. The value of the condition, and the text behind it, are what
`If_Token` gives. Where no text is left, the blocks on the lines that follow are executed or skipped;
else the text holds the statements, and the one to execute is inserted into the command buffer.

The main result says when the statement that is executed is the one whose block would be executed
under the same condition: the value has to be empty or true, and the first statement may hold no `else`
and not begin with `then`.

A `char` is signed, so that a character above 127 is below a space.
-/

namespace FteQuake.CmdIf

open FirstInfix List Option

/-! ## Values -/

/-- A text of ASCII. -/
def chars (s : List Char) : List QByte := s.map fun c => BitVec.ofNat 8 c.toNat

def isDigit (c : QByte) : Bool := 0x30 ≤ c ∧ c ≤ 0x39

/-- `is_numeric`. -/
def isNumeric (s : List QByte) : Bool :=
  let c := s.head?.getD 0
  let d := s.tail.head?.getD 0
  isDigit c || (c = 0x2d || c = 0x2b) && (d = 0x2e || isDigit d) || c = 0x2e && isDigit d

/-- `!Q_strcasecmp`, with a text in lower case. -/
def sameText (s : List QByte) (t : List Char) : Bool := s.map CFloat.lower = chars t

/-- `is_true`. -/
def isTrue (s : List QByte) : Bool :=
  if isNumeric s then ¬(CFloat.strtod s).IsZero
  else if sameText s ['t', 'r', 'u', 'e'] || sameText s ['y', 'e', 's'] then true
  else if sameText s ['f', 'a', 'l', 's', 'e'] || sameText s ['n', 'o'] || sameText s ['n', 'u', 'l', 'l'] ||
    sameText s ['n', 'i', 'l'] then false
  else s ≠ []

/-! ## `Cmd_if_f` -/

/-- A space or a tab. -/
def blank (c : QByte) : Bool := c = 0x20 || c = 0x09

/-- `*ws <= ' '`. -/
def control (c : QByte) : Bool := c.toInt ≤ 0x20

def thenWord : List QByte := chars ['t', 'h', 'e', 'n']

def elseWord : List QByte := chars ['e', 'l', 's', 'e']

theorem four_le_of_thenWord {s : List QByte} (h : thenWord <+: s) : 4 ≤ s.length := by
  have hthen : thenWord.length = 4 := rfl
  rw [← hthen]
  exact h.length_le

/-- The text from `skipws` on, once: spaces before it are skipped, and those behind it are cut off. -/
def stripSpaces (end_ : List QByte) : List QByte := (end_.dropWhile blank).rdropWhile control

theorem length_stripSpaces_le (end_ : List QByte) : (stripSpaces end_).length ≤ end_.length :=
  (( rdropWhile_prefix control _).length_le).trans (dropWhile_suffix blank).length_le

/-- The text behind a condition, without every `then` before it. -/
def skipws (end_ : List QByte) : List QByte :=
  if thenWord <+: stripSpaces end_ then skipws ((stripSpaces end_).drop 4)
  else (stripSpaces end_).dropWhile blank
termination_by end_.length
decreasing_by
  have hthen : 4 ≤ (stripSpaces end_).length := four_le_of_thenWord ‹_›
  have hstrip := length_stripSpaces_le end_
  rw [List.length_drop]
  omega

/-- What `Cmd_if_f` does with the value of a condition. -/
inductive IfAction
  | notTerminated
  /-- The first block is executed, or skipped. -/
  | block (execute : Bool)
  | insert (text : List QByte)
  | nothing
  deriving DecidableEq

/-- `Cmd_if_f`, with the value of the condition and the text behind it. -/
def cmdIf (ret : List QByte) (end_ : Option (List QByte)) : IfAction :=
  match end_ with
  | none => .notTerminated
  | some end_ =>
    let end_ := skipws end_
    if end_ = [] then .block (isTrue ret)
    else if ret ≠ [] then
      match splitFirst elseWord end_ with
      | some (text, _) => .insert text
      | none => .insert end_
    else
      match splitFirst elseWord end_ with
      | some (_, text) => .insert text
      | none => .nothing

/-! ## Statements -/

/-- A statement without the blanks and every `then` before it. -/
def skipThen (s : List QByte) : List QByte :=
  if thenWord <+: s.dropWhile blank then skipThen ((s.dropWhile blank).drop 4) else s.dropWhile blank
termination_by s.length
decreasing_by
  have hthen : 4 ≤ (s.dropWhile blank).length := four_le_of_thenWord ‹_›
  have hskip := (List.dropWhile_suffix (l := s) blank).length_le
  rw [List.length_drop]
  omega

/-- The text that stands for a first statement: it ends at an `else`. -/
def firstPart (s : List QByte) : List QByte :=
  match splitFirst elseWord (skipThen (s ++ [0x20])) with
  | some (text, _) => text
  | none => skipThen (s ++ [0x20])

/-- The text `s1 else s2`. -/
def branches (s1 s2 : List QByte) : List QByte := s1 ++ [0x20] ++ (elseWord ++ 0x20 :: s2)

/-- What is executed is `s`, up to blanks around it. -/
def Executes (action : IfAction) (s : List QByte) : Prop :=
  ∃ text, action = .insert text ∧ trim blank text = trim blank s

/-- The values and statements for which the line does what the blocks do. -/
def Agrees (ret s1 s2 : List QByte) : Prop :=
  if isTrue ret then ¬elseWord <:+: s1 ∧ ¬thenWord <+: s1.dropWhile blank
  else if ret = [] then ¬elseWord <:+: s1 ∧ ∀ c ∈ (trim blank s2).getLast?, ¬control c
  else trim blank (firstPart s1) = trim blank s2

/-! ### The text behind the condition -/

section Skip

variable {s u v : List QByte}

/-- A text that begins with `else` does not begin with `then`. -/
theorem not_prefix_thenWord (v : List QByte) : ¬thenWord <+: [] ++ (elseWord ++ v) := by
  simp [thenWord, elseWord, chars]

theorem not_blank_of_mem_thenWord : ∀ c ∈ thenWord, ¬blank c := by decide

theorem not_blank_of_mem_elseWord : ∀ c ∈ elseWord, ¬blank c := by decide

/-- A text ends in a blank, unless there is none. -/
def EndsBlank (u : List QByte) : Prop := ∀ c ∈ u.getLast?, blank c

theorem EndsBlank.of_suffix (h : EndsBlank u) (hs : v <:+ u) : EndsBlank v := by
  obtain ⟨w, rfl⟩ := hs
  intro c hc
  refine h c ?_
  rw [getLast?_append, mem_def.1 hc]
  rfl

theorem EndsBlank.prefix_iff (h : EndsBlank u) {p : List QByte} (hp : ∀ c ∈ p, ¬blank c)
    (hne : u ≠ []) : p <+: u ++ v ↔ p <+: u :=
  prefix_append_iff (fun c hc hmem => hp c hmem (h c hc)) hne

theorem stripSpaces_append (u v : List QByte) :
    stripSpaces (u ++ (elseWord ++ v)) = u.dropWhile blank ++ (elseWord ++ v.rdropWhile control) := by
  have hskip : (u ++ (elseWord ++ v)).dropWhile blank = u.dropWhile blank ++ (elseWord ++ v) := by
    rw [dropWhile_append]
    split
    · next hnil =>
      rw [isEmpty_iff.1 hnil]
      rfl
    · rfl
  rw [stripSpaces, hskip, ← append_assoc, rdropWhile_append_of_neg, append_assoc]
  refine ⟨0x65, ?_, by decide⟩
  rw [getLast?_append]
  rfl

theorem skipws_append (hu : EndsBlank u) :
    skipws (u ++ (elseWord ++ v)) = skipThen u ++ (elseWord ++ v.rdropWhile control) := by
  induction hn : u.length using Nat.strong_induction_on generalizing u v with
  | _ n ih =>
    have hw := hu.of_suffix (dropWhile_suffix blank)
    have hthen : thenWord <+: u.dropWhile blank ++ (elseWord ++ v.rdropWhile control) ↔
        thenWord <+: u.dropWhile blank := by
      by_cases hne : u.dropWhile blank = []
      · rw [hne]
        exact iff_of_false (not_prefix_thenWord _) (by decide)
      · exact hw.prefix_iff not_blank_of_mem_thenWord hne
    rw [skipws, skipThen, stripSpaces_append]
    by_cases hp : thenWord <+: u.dropWhile blank
    · have hlen : 4 ≤ (u.dropWhile blank).length := hp.length_le
      have hskip := (dropWhile_suffix (l := u) blank).length_le
      rw [if_pos hp, if_pos (hthen.2 hp), drop_append_of_le_length hlen,
        ih _ (by rw [length_drop]; omega) (hw.of_suffix (drop_suffix 4 _)) rfl,
        rdropWhile_idempotent]
    · rw [if_neg hp, if_neg (hthen.not.2 hp), dropWhile_append, dropWhile_idempotent]
      split
      · next hnil =>
        rw [isEmpty_iff.1 hnil]
        rfl
      · rfl

/-! ### The first statement -/

/-- The characters that are no blanks. -/
def visible (s : List QByte) : ℕ := s.countP fun c => !blank c

theorem visible_append : visible (u ++ v) = visible u + visible v := countP_append

theorem visible_trim (s : List QByte) : visible (trim blank s) = visible s := countP_trim blank s

theorem visible_le_of_suffix (h : u <:+ v) : visible u ≤ visible v := h.sublist.countP_le

theorem skipThen_suffix (s : List QByte) : skipThen s <:+ s := by
  fun_induction skipThen s with
  | case1 s hthen ih => exact ih.trans ((drop_suffix 4 _).trans (dropWhile_suffix blank))
  | case2 s hthen => exact dropWhile_suffix blank

theorem visible_skipThen_lt (h : thenWord <+: s.dropWhile blank) : visible (skipThen s) < visible s := by
  obtain ⟨t, ht⟩ := h
  have hrest : skipThen s = skipThen t := by
    rw [skipThen, ← ht, if_pos (prefix_append _ _)]
    rfl
  have hle := visible_le_of_suffix (dropWhile_suffix (l := s) blank)
  rw [← ht, visible_append] at hle
  have hfour : visible thenWord = 4 := by decide
  have hsuffix := visible_le_of_suffix (skipThen_suffix t)
  rw [hrest]
  omega

theorem skipThen_append_left (h : ∀ c ∈ u, blank c) : skipThen (u ++ s) = skipThen s := by
  rw [skipThen, dropWhile_append_of_pos h, ← skipThen]

theorem elseWord_infix_dropWhile : elseWord <:+: s.dropWhile blank ↔ elseWord <:+: s := by
  refine ⟨fun h => h.trans (dropWhile_suffix blank).isInfix, fun h => ?_⟩
  induction s with
  | nil => exact h
  | cons c s ih =>
    rw [dropWhile_cons]
    split
    · next hc =>
      refine ih ((infix_cons_iff.1 h).resolve_left fun hp => ?_)
      obtain ⟨rfl, -⟩ := cons_prefix_cons.1 hp
      exact absurd hc (by decide)
    · exact h

/-- Neither blanks nor a `then` are part of an `else`. -/
theorem elseWord_infix_skipThen (s : List QByte) : elseWord <:+: skipThen s ↔ elseWord <:+: s := by
  fun_induction skipThen s with
  | case1 s hthen ih =>
    obtain ⟨t, ht⟩ := hthen
    have hdrop : (s.dropWhile blank).drop 4 = t := by
      rw [← ht]
      rfl
    rw [ih, ← elseWord_infix_dropWhile (s := s), hdrop, ← ht]
    simp only [thenWord, elseWord, chars, map_cons, map_nil, cons_append, nil_append, infix_cons_iff, cons_prefix_cons]
    simp
  | case2 s hthen => exact elseWord_infix_dropWhile

theorem endsBlank_append_space (s : List QByte) : EndsBlank (s ++ [0x20]) := by
  intro c hc
  rw [getLast?_concat] at hc
  cases hc
  rfl

theorem visible_append_space (s : List QByte) : visible (s ++ [0x20]) = visible s := by
  rw [visible_append]
  rfl

theorem thenWord_prefix_append_space :
    thenWord <+: (s ++ [0x20]).dropWhile blank ↔ thenWord <+: s.dropWhile blank := by
  rw [dropWhile_append]
  split
  · next hnil =>
    rw [isEmpty_iff.1 hnil]
    exact iff_of_false (by decide) (by decide)
  · rw [prefix_concat_iff]
    refine or_iff_right fun h => ?_
    have hlast : thenWord.getLast? = some 0x20 := by rw [h, getLast?_concat]
    exact absurd hlast (by decide)

end Skip

/-! ### Both branches -/

section Branches

variable {ret lead s1 s2 : List QByte}

/-- What is left of a line behind its condition. -/
theorem skipws_branches (hlead : ∀ c ∈ lead, blank c) :
    skipws (lead ++ branches s1 s2) =
      skipThen (s1 ++ [0x20]) ++ (elseWord ++ (0x20 :: s2).rdropWhile control) := by
  have hends : EndsBlank (lead ++ (s1 ++ [0x20])) := by
    rw [← append_assoc]
    exact endsBlank_append_space _
  rw [branches, ← append_assoc, skipws_append hends, skipThen_append_left hlead]

theorem elseWord_infix_first : elseWord <:+: skipThen (s1 ++ [0x20]) ↔ elseWord <:+: s1 := by
  rw [elseWord_infix_skipThen, infix_concat_iff]
  refine or_iff_right fun h => ?_
  obtain h | ⟨t, h, -⟩ := suffix_concat_iff.1 h
  · exact absurd h (by decide)
  · have hlast : elseWord.getLast? = some 0x20 := by rw [h, getLast?_concat]
    exact absurd hlast (by decide)

theorem splitFirst_of_absent (h : ¬elseWord <:+: s1) (v : List QByte) :
    splitFirst elseWord (skipThen (s1 ++ [0x20]) ++ (elseWord ++ v)) = some (skipThen (s1 ++ [0x20]), v) := by
  have hends := (endsBlank_append_space s1).of_suffix (skipThen_suffix _)
  refine splitFirst_append_self (fun c hc hmem => not_blank_of_mem_elseWord c hmem (hends c hc)) ?_ v
  rwa [elseWord_infix_first]

theorem cmdIf_of_ne_nil (hlead : ∀ c ∈ lead, blank c) (hret : ret ≠ []) :
    cmdIf ret (some (lead ++ branches s1 s2)) = .insert (firstPart s1) := by
  have hne : skipThen (s1 ++ [0x20]) ++ (elseWord ++ (0x20 :: s2).rdropWhile control) ≠ [] := by
    simp [elseWord, chars]
  rw [cmdIf]
  simp only [skipws_branches hlead, if_neg hne, if_pos hret, firstPart]
  by_cases h : elseWord <:+: s1
  · obtain ⟨⟨a, b⟩, hab⟩ := isSome_iff_exists.1 (splitFirst_isSome_iff.2 (elseWord_infix_first.2 h))
    rw [splitFirst_append_left hab, hab]
  · have hnone : splitFirst elseWord (skipThen (s1 ++ [0x20])) = none := by
      rwa [← not_isSome_iff_eq_none, splitFirst_isSome_iff, elseWord_infix_first]
    rw [splitFirst_of_absent h, hnone]

theorem cmdIf_nil_of_absent (hlead : ∀ c ∈ lead, blank c) (h : ¬elseWord <:+: s1) :
    cmdIf [] (some (lead ++ branches s1 s2)) = .insert ((0x20 :: s2).rdropWhile control) := by
  have hne : skipThen (s1 ++ [0x20]) ++ (elseWord ++ (0x20 :: s2).rdropWhile control) ≠ [] := by
    simp [elseWord, chars]
  rw [cmdIf]
  simp only [skipws_branches hlead, if_neg hne, splitFirst_of_absent h]
  rfl

theorem cmdIf_nil_of_infix (hlead : ∀ c ∈ lead, blank c) (h : elseWord <:+: s1) (s2 : List QByte) :
    ∃ b, cmdIf [] (some (lead ++ branches s1 s2)) =
      .insert (b ++ (elseWord ++ (0x20 :: s2).rdropWhile control)) := by
  have hne : skipThen (s1 ++ [0x20]) ++ (elseWord ++ (0x20 :: s2).rdropWhile control) ≠ [] := by
    simp [elseWord, chars]
  obtain ⟨⟨a, b⟩, hab⟩ := isSome_iff_exists.1 (splitFirst_isSome_iff.2 (elseWord_infix_first.2 h))
  refine ⟨b, ?_⟩
  rw [cmdIf]
  simp only [skipws_branches hlead, if_neg hne, splitFirst_append_left hab]
  rfl

theorem firstPart_of_absent (h : ¬elseWord <:+: s1) : firstPart s1 = skipThen (s1 ++ [0x20]) := by
  have hnone : splitFirst elseWord (skipThen (s1 ++ [0x20])) = none := by
    rwa [← not_isSome_iff_eq_none, splitFirst_isSome_iff, elseWord_infix_first]
  rw [firstPart, hnone]

/-- **The first statement is kept** if it holds no `else` and does not begin with `then`. -/
theorem trim_firstPart_iff :
    trim blank (firstPart s1) = trim blank s1 ↔ ¬elseWord <:+: s1 ∧ ¬thenWord <+: s1.dropWhile blank := by
  have hfirst := visible_le_of_suffix (skipThen_suffix (s1 ++ [0x20]))
  rw [visible_append_space] at hfirst
  constructor
  · intro h
    have hvisible := congrArg visible h
    rw [visible_trim, visible_trim] at hvisible
    have helse : ¬elseWord <:+: s1 := by
      intro helse
      obtain ⟨⟨a, b⟩, hab⟩ := isSome_iff_exists.1 (splitFirst_isSome_iff.2 (elseWord_infix_first.2 helse))
      rw [splitFirst_eq_append hab, visible_append, visible_append] at hfirst
      rw [firstPart, hab] at hvisible
      have hfour : visible elseWord = 4 := by decide
      simp only at hvisible
      omega
    refine ⟨helse, fun hthen => ?_⟩
    have hlt := visible_skipThen_lt (thenWord_prefix_append_space.2 hthen)
    rw [firstPart_of_absent helse] at hvisible
    rw [visible_append_space] at hlt
    omega
  · rintro ⟨helse, hthen⟩
    rw [firstPart_of_absent helse, skipThen, if_neg (thenWord_prefix_append_space.not.2 hthen),
      trim_dropWhile, trim_append_right (by decide)]

theorem control_of_blank {c : QByte} (h : blank c) : control c := by
  rw [blank, Bool.or_eq_true, decide_eq_true_eq, decide_eq_true_eq] at h
  rcases h with rfl | rfl <;> rfl

/-- **The second statement is kept** if its last character is no control character. -/
theorem trim_second_iff :
    trim blank ((0x20 :: s2).rdropWhile control) = trim blank s2 ↔
      ∀ c ∈ (trim blank s2).getLast?, ¬control c := by
  obtain ⟨a, b, ha, hb, hs⟩ := exists_eq_trim blank s2
  have ha' : ∀ c ∈ 0x20 :: a, blank c := forall_mem_cons.2 ⟨rfl, ha⟩
  have hstrip : (0x20 :: s2).rdropWhile control = (0x20 :: a ++ trim blank s2).rdropWhile control := by
    conv_lhs => rw [hs]
    rw [← append_assoc, ← cons_append, rdropWhile_append_of_pos fun c hc => control_of_blank (hb c hc)]
    rfl
  rw [hstrip]
  rcases eq_nil_or_concat' (trim blank s2) with hnil | ⟨core, c, hcore⟩
  · rw [hnil, append_nil, rdropWhile_eq_nil_iff.2 fun c hc => control_of_blank (ha' c hc)]
    exact iff_of_true rfl nofun
  · have hblank : ¬blank c := not_blank_getLast_trim (by rw [hcore, getLast?_concat])
    have hlast : (∀ d ∈ (trim blank s2).getLast?, ¬control d) ↔ ¬control c := by
      rw [hcore, getLast?_concat]
      exact ⟨fun h => h c rfl, fun h d hd => some.inj hd ▸ h⟩
    rw [hlast]
    by_cases hc : control c
    · refine iff_of_false (fun h => ?_) (not_not.2 hc)
      have hvisible := congrArg visible h
      rw [visible_trim, visible_trim, ← visible_trim s2, hcore, ← append_assoc,
        rdropWhile_concat_pos _ _ _ hc, visible_append] at hvisible
      have hle : visible ((0x20 :: a ++ core).rdropWhile control) ≤ visible (0x20 :: a ++ core) :=
        ( rdropWhile_prefix control _).sublist.countP_le
      have hzero : visible (0x20 :: a) = 0 := countP_eq_zero.2 fun d hd => by simp [ha' d hd]
      have hone : visible [c] = 1 := by simp [visible, hblank]
      rw [visible_append, hzero] at hle
      omega
    · refine iff_of_true ?_ hc
      rw [hcore, ← append_assoc, rdropWhile_concat_neg _ _ _ hc, append_assoc, ← hcore, trim_append_left ha']
      conv_rhs => rw [hs, trim_append_left ha, trim_append_right hb]

theorem getLast_trim {s : List QByte} {c : QByte} (h : s.getLast? = some c) (hc : ¬blank c) :
    (trim blank s).getLast? = some c := by
  obtain ⟨t, rfl⟩ := getLast?_eq_some_iff.1 h
  rw [trim, dropWhile_append]
  split
  · rw [dropWhile_cons_of_neg hc, ← nil_append [c], rdropWhile_concat_neg _ _ _ hc]
    rfl
  · rw [rdropWhile_concat_neg _ _ _ hc, getLast?_concat]

/-- Text with an `else` in front of the second statement is not the second statement. -/
theorem trim_ne_of_occurs (b : List QByte) :
    trim blank (b ++ (elseWord ++ (0x20 :: s2).rdropWhile control)) ≠ trim blank s2 := by
  intro h
  have hlast : ∀ c ∈ (trim blank s2).getLast?, ¬control c := by
    rw [← h]
    rcases eq_nil_or_concat' ((0x20 :: s2).rdropWhile control) with hnil | ⟨t, c, ht⟩
    · have he : (b ++ (elseWord ++ ([] : List QByte))).getLast? = some 0x65 := by
        rw [getLast?_append]
        rfl
      rw [hnil, getLast_trim he (by decide)]
      rintro d ⟨⟩
      decide
    · have hc : ¬control c := by
        have hne : (0x20 :: s2).rdropWhile control ≠ [] := by
          rw [ht]
          exact append_ne_nil_of_right_ne_nil _ (cons_ne_nil _ _)
        have hlast := rdropWhile_last_not control _ hne
        simpa only [ht, getLast_concat] using hlast
      have he : (b ++ (elseWord ++ (t ++ [c]))).getLast? = some c := by
        rw [← append_assoc, ← append_assoc, getLast?_concat]
      rw [ht, getLast_trim he fun hblank => hc (control_of_blank hblank)]
      rintro d ⟨⟩
      exact hc
  have hvisible := congrArg visible h
  have hsecond := congrArg visible (trim_second_iff.2 hlast)
  rw [visible_trim, visible_trim] at hvisible hsecond
  rw [visible_append, visible_append, hsecond] at hvisible
  have hfour : visible elseWord = 4 := by decide
  omega

/-- A condition without a statement on its line is one of blocks, and its truth selects them. -/
theorem cmdIf_block {end_ : Option (List QByte)} {first : Bool} (h : cmdIf ret end_ = .block first) :
    first = isTrue ret := by
  cases end_ with
  | none => cases h
  | some end_ =>
    rw [cmdIf] at h
    split at h
    · cases h
      rfl
    · split at h <;> split at h <;> cases h

end Branches

end FteQuake.CmdIf
