import FteQuake.Common.ExpandString
import Mathlib.Data.BitVec
import Mathlib.Data.List.TakeWhile

/-!
# What a command line expands to

The meaning of a line that `Cmd_ExpandString` expands, said item by item: a character, an argument behind
`%`, `$$`, a name in braces, or a name without, of which the longest start with a value is replaced and
the rest is kept. A `-` before a name belongs to the form: where the value is empty, the blanks behind the
name are left out.

The main result says when a line that fits gets its meaning: exactly when it holds no name behind `$-`,
without braces, that has a value. There the loop counts the name without its `-` and leaves the rest of
it with, so that the last character of what it replaced is left over.

The loop takes a character above 127 for a blank, since a `char` is signed, so such a character may not be
the first one behind the blanks that are left out.
-/

namespace FteQuake

open List Option Nat

namespace CmdExpand

/-! ## The meaning of a line -/

section Meaning

variable (env : Env) (o : Options)

/-- The string that a name has where `data` is left of the line. -/
def value (data term : List QByte) (enclosed : Bool) : Option (List QByte) := (lookup env o data term enclosed 0).1

/-- The last of `n` candidates from `i` on that has a value, with the value. -/
def lastSome {α : Type*} (f : ℕ → Option α) : (i n : ℕ) → Option (ℕ × α)
  | _, 0 => none
  | i, n + 1 => (lastSome f (i + 1) n).or ((f i).map fun v => (i, v))

/-- An item of a line: what it stands for, whether blanks behind it are left out, and what follows. -/
structure Item where
  text : List QByte
  strips : Bool
  rest : List QByte

def isBlank (c : QByte) : Bool := c ≤ 32

/-- An item behind which blanks are left out if it stands for nothing and has the `-`. -/
def Item.mk' (text value : List QByte) (dash : Bool) (rest : List QByte) : Item :=
  if dash ∧ value = [] then ⟨text, true, rest.dropWhile isBlank⟩ else ⟨text, false, rest⟩

/-- A name is begun by `-`. -/
def dashed (s : List QByte) : Bool := s.head? = some 45

/-- The longest start of the name at the begin of `data` that has a value, which is looked up without the `-`. -/
def longest (data : List QByte) : Option (ℕ × List QByte) :=
  let name := data.takeWhile isNameChar
  let start := fun i => (name.take i).drop (stripTrailing data)
  lastSome (fun i => value env o (name.drop i ++ data.dropWhile isNameChar) (start i) false) 1 name.length

/-- A name without braces. -/
def nameItem (data : List QByte) : Item :=
  let name := data.takeWhile isNameChar
  let rest := data.dropWhile isNameChar
  match longest env o data with
  | some (i, v) => .mk' (v ++ name.drop i) v (dashed data) rest
  | none => ⟨36 :: name, false, rest⟩

/-- A name in braces. The last brace may be missing. -/
def braceItem (data : List QByte) : Item :=
  let body := data.takeWhile (· ≠ 125)
  let rest := data.dropWhile (· ≠ 125)
  match value env o rest (body.drop (stripTrailing data)) true with
  | some v => .mk' v v (dashed data) (rest.drop 1)
  | none => ⟨36 :: 123 :: (body ++ rest.take 1), false, rest.drop 1⟩

/-- An item behind `$`. -/
def dollarItem (data : List QByte) : Item :=
  if data.head? = some 36 then ⟨[36], false, data.drop 1⟩
  else if data.head? = some 123 then braceItem env o (data.drop 1)
  else nameItem env o data

/-- The number of quotes up to a character, and with it. -/
def countQuotes (c : QByte) (quotes : ℕ) : ℕ := if c = 34 then quotes + 1 else quotes

/-- The first item of a line. -/
def item (c : QByte) (data : List QByte) (quotes : ℕ) : Item :=
  if c = 37 ∧ countQuotes c quotes % 2 = 0 ∧ !env.dpcompatConsole ∧ o.expandargs then
    ⟨(readPercent env data).1, false, (readPercent env data).2⟩
  else if c = 36 ∧ (countQuotes c quotes % 2 = 0 ∨ env.dpcompatConsole) then dollarItem env o data
  else ⟨[c], false, data⟩

end Meaning

section Rest

variable {env : Env} {o : Options} {data : List QByte}

theorem strtol_suffix (s : List QByte) : (strtol s).2 <:+ s := by
  have htext : strtolText s <:+ s := by
    rw [strtolText]
    split
    · exact (drop_suffix _ _).trans (dropWhile_suffix _)
    · exact dropWhile_suffix _
  rw [strtol]
  split
  · exact suffix_refl s
  · exact (dropWhile_suffix _).trans htext

theorem readPercent_suffix (env : Env) (data : List QByte) : (readPercent env data).2 <:+ data := by
  rw [readPercent]
  split_ifs
  · exact drop_suffix _ _
  · exact drop_suffix _ _
  · exact drop_suffix _ _
  · dsimp only
    split
    · exact strtol_suffix data
    · exact suffix_refl data

theorem text_mk' (text v : List QByte) (dash : Bool) (rest : List QByte) : (Item.mk' text v dash rest).text = text := by
  rw [Item.mk']
  split <;> rfl

theorem rest_mk'_suffix (text value : List QByte) (dash : Bool) (rest : List QByte) :
    (Item.mk' text value dash rest).rest <:+ rest := by
  rw [Item.mk']
  split
  · exact dropWhile_suffix _
  · exact suffix_refl rest

theorem rest_nameItem_suffix : (nameItem env o data).rest <:+ data := by
  rw [nameItem]
  split
  · exact (rest_mk'_suffix _ _ _ _).trans (dropWhile_suffix _)
  · exact dropWhile_suffix _

theorem rest_braceItem_suffix : (braceItem env o data).rest <:+ data := by
  have hdrop : (data.dropWhile (· ≠ 125)).drop 1 <:+ data := (drop_suffix _ _).trans (dropWhile_suffix _)
  rw [braceItem]
  split
  · exact (rest_mk'_suffix _ _ _ _).trans hdrop
  · exact hdrop

/-- Behind an item is the end of the line. -/
theorem rest_item_suffix (env : Env) (o : Options) (c : QByte) (data : List QByte) (quotes : ℕ) :
    (item env o c data quotes).rest <:+ data := by
  rw [item]
  split_ifs
  · exact readPercent_suffix env data
  · rw [dollarItem]
    split_ifs
    · exact drop_suffix _ _
    · exact rest_braceItem_suffix.trans (drop_suffix _ _)
    · exact rest_nameItem_suffix
  · exact suffix_refl data

end Rest

/-- What a line stands for, behind a number of quotes. -/
def meaning (env : Env) (o : Options) : List QByte → ℕ → List QByte
  | [], _ => []
  | c :: data, quotes =>
    (item env o c data quotes).text ++ meaning env o (item env o c data quotes).rest (countQuotes c quotes)
termination_by data => data.length
decreasing_by exact Nat.lt_succ_of_le (rest_item_suffix env o c data quotes).length_le

theorem lastSome_eq_none {α : Type*} {f : ℕ → Option α} {i n : ℕ} (h : lastSome f i n = none) (j : ℕ) (hj : i ≤ j)
    (hlt : j < i + n) : f j = none := by
  induction n generalizing i with
  | zero => exact absurd hlt (not_lt.mpr hj)
  | succ n ih =>
    obtain ⟨hlater, hi⟩ := or_eq_none_iff.mp h
    rcases lt_or_eq_of_le hj with hij | rfl
    · exact ih hlater hij (by omega)
    · exact map_eq_none_iff.mp hi

/-- The last candidate with a value: those behind it have none. -/
theorem lastSome_eq_some {α : Type*} {f : ℕ → Option α} {i n k : ℕ} {v : α} (h : lastSome f i n = some (k, v)) :
    i ≤ k ∧ k < i + n ∧ f k = some v ∧ ∀ j, k < j → j < i + n → f j = none := by
  induction n generalizing i with
  | zero => cases h
  | succ n ih =>
    rw [lastSome] at h
    cases hlater : lastSome f (i + 1) n with
    | some r =>
      rw [hlater] at h
      cases h
      obtain ⟨hle, hlt, hk, hbehind⟩ := ih hlater
      exact ⟨by omega, by omega, hk, fun j hj hj' => hbehind j hj (by omega)⟩
    | none =>
      rw [hlater, none_or] at h
      obtain ⟨v', hv, hpair⟩ := map_eq_some_iff.mp h
      cases hpair
      refine ⟨le_rfl, by omega, hv, fun j hj hj' => ?_⟩
      exact lastSome_eq_none hlater j hj (by omega)

/-- The arguments of the command, and the values, are strings. -/
structure Env.IsText (env : Env) : Prop where
  args : 0 ∉ env.cmdArgs
  argv : ∀ i, 0 ∉ env.cmdArgv i
  cvars : ∀ data term level enclosed, ∀ s ∈ (env.expandCvar data term level enclosed).1, 0 ∉ s
  macros : ∀ data term, ∀ s ∈ (env.macroString data term).1, 0 ∉ s

section Text

variable {env : Env} {o : Options} {data : List QByte} (henv : env.IsText)

include henv

theorem zero_notMem_value {term v : List QByte} {enclosed : Bool} (h : value env o data term enclosed = some v) :
    0 ∉ v := by
  rw [value, lookup] at h
  split at h
  · rcases or_eq_some_iff.mp h with hmacro | ⟨-, hcvar⟩
    · exact henv.macros _ _ v hmacro
    · exact henv.cvars _ _ _ _ v hcvar
  · exact henv.cvars _ _ _ _ v h

theorem zero_notMem_readPercent (data : List QByte) : 0 ∉ (readPercent env data).1 := by
  have hquoted : 0 ∉ vaQuoted env.cmdArgs := fun h => by
    have hmem := mem_of_mem_take h
    simp only [cons_append, mem_cons, mem_append, not_mem_nil, or_false] at hmem
    rcases hmem with hquote | hargs | hquote
    · exact absurd hquote (by decide)
    · exact henv.args hargs
    · exact absurd hquote (by decide)
  rw [readPercent]
  split_ifs
  · exact fun h => absurd (mem_singleton.mp h) (by decide)
  · exact hquoted
  · exact henv.args
  · dsimp only
    split
    · exact henv.argv _
    · exact fun h => absurd (mem_singleton.mp h) (by decide)

theorem zero_notMem_nameItem (hdata : 0 ∉ data) : 0 ∉ (nameItem env o data).text := by
  have hname : 0 ∉ data.takeWhile isNameChar := fun h => hdata (( takeWhile_prefix _).subset h)
  rw [nameItem]
  split
  · rename_i hlongest
    obtain ⟨-, -, hvalue, -⟩ := lastSome_eq_some hlongest
    rw [text_mk']
    intro h
    rcases mem_append.mp h with h | h
    · exact zero_notMem_value henv hvalue h
    · exact hname (mem_of_mem_drop h)
  · exact not_mem_cons_of_ne_of_not_mem (by decide) hname

theorem zero_notMem_braceItem (hdata : 0 ∉ data) : 0 ∉ (braceItem env o data).text := by
  rw [braceItem]
  split
  · rename_i hvalue
    rw [text_mk']
    exact zero_notMem_value henv hvalue
  · refine not_mem_cons_of_ne_of_not_mem (by decide) (not_mem_cons_of_ne_of_not_mem (by decide) ?_)
    intro h
    rcases mem_append.mp h with h | h
    · exact hdata (( takeWhile_prefix _).subset h)
    · exact hdata ((dropWhile_suffix _).subset (mem_of_mem_take h))

/-- An item of a string stands for a string. -/
theorem zero_notMem_item {c : QByte} (hdata : 0 ∉ c :: data) (quotes : ℕ) : 0 ∉ (item env o c data quotes).text := by
  have hc : 0 ≠ c := ne_of_not_mem_cons hdata
  replace hdata : 0 ∉ data := not_mem_of_not_mem_cons hdata
  have hdrop : 0 ∉ data.drop 1 := fun h => hdata (mem_of_mem_drop h)
  rw [item]
  split_ifs
  · exact zero_notMem_readPercent henv data
  · rw [dollarItem]
    split_ifs
    · exact fun h => absurd (mem_singleton.mp h) (by decide)
    · exact zero_notMem_braceItem henv hdrop
    · exact zero_notMem_nameItem henv hdata
  · exact fun h => hc (mem_singleton.mp h)

end Text

/-- A carriage return at the end is left out. -/
def dropCr (s : List QByte) : List QByte := if s.getLast? = some 13 then s.dropLast else s

/-! ## The pieces of the loop -/

section Pieces

variable {env : Env} {o : Options} {rd rd' : Reading} {p : Piece} {data : List QByte}

/-- What a piece is in the line that comes out. -/
def Piece.text : Piece → List QByte
  | expansion str tail => str ++ tail
  | dollar buf => 36 :: buf
  | char c => [c]

theorem lookup_fst (data term : List QByte) (enclosed : Bool) (accesslevel : Int) :
    (lookup env o data term enclosed accesslevel).1 = value env o data term enclosed := by
  rw [value, lookup, lookup]
  split <;> rfl

/-- The scan of a name: the longest start with a value is the best one. -/
theorem scanName_eq {striptrailing : ℕ} {f g : Found} {rest : List QByte}
    (hbrace : (f.buf ++ data).head? ≠ some 123) (h : scanName env o striptrailing data f = some (g, rest)) :
    rest = data.dropWhile isNameChar ∧ g.buf = f.buf ++ data.takeWhile isNameChar ∧
      g.best = ((lastSome (fun i => value env o (g.buf.drop i ++ rest) ((g.buf.take i).drop striptrailing) false)
        (f.buf.length + 1) (data.takeWhile isNameChar).length).map fun r =>
          (r.2, ((g.buf.take r.1).drop striptrailing).length)).or f.best := by
  induction data generalizing f with
  | nil =>
    cases h
    exact ⟨rfl, (append_nil _).symm, rfl⟩
  | cons c data ih =>
    have hhead : f.buf.head? ≠ some 123 := by
      intro hhead
      rw [head?_append, hhead] at hbrace
      exact hbrace rfl
    have hends : endsName f.buf c = !isNameChar c := by
      rw [endsName, isNameChar, decide_eq_true hhead, Bool.and_true, Bool.not_not]
    rw [scanName, hends] at h
    cases hname : isNameChar c with
    | false =>
      rw [hname] at h
      cases h
      rw [takeWhile_cons_of_neg (by simp [hname]), dropWhile_cons_of_neg (by simp [hname])]
      exact ⟨rfl, (append_nil _).symm, rfl⟩
    | true =>
      rw [hname, if_neg (by decide)] at h
      obtain ⟨-, h⟩ := ite_none_right_eq_some.mp h
      have hpush : (f.push env o striptrailing data c).buf = f.buf ++ [c] := rfl
      have hbrace' : ((f.push env o striptrailing data c).buf ++ data).head? ≠ some 123 := by
        rwa [hpush, append_assoc]
      obtain ⟨hrest, hbuf, hbest⟩ := ih hbrace' h
      rw [hpush] at hbuf hbest
      rw [takeWhile_cons_of_pos hname, dropWhile_cons_of_pos hname]
      have hbuf' : g.buf = f.buf ++ [c] ++ data.takeWhile isNameChar := hbuf
      refine ⟨hrest, by rw [hbuf, append_assoc]; rfl, ?_⟩
      have hlength : (f.buf ++ [c]).length = f.buf.length + 1 := length_append
      have htake : g.buf.take (f.buf.length + 1) = f.buf ++ [c] := by rw [hbuf', ← hlength, take_left]
      have hdrop : g.buf.drop (f.buf.length + 1) ++ rest = data := by
        rw [hbuf', ← hlength, drop_left, hrest, takeWhile_append_dropWhile]
      have hfound : (f.push env o striptrailing data c).best =
          ((value env o data ((f.buf ++ [c]).drop striptrailing) false).map fun str =>
            (str, ((f.buf ++ [c]).drop striptrailing).length)).or f.best := by
        rw [← lookup_fst]
        rfl
      have hpair : ((fun r : ℕ × List QByte => (r.2, ((g.buf.take r.1).drop striptrailing).length)) ∘
          fun v => (f.buf.length + 1, v)) = fun str => (str, ((f.buf ++ [c]).drop striptrailing).length) := by
        funext str
        change (str, ((g.buf.take (f.buf.length + 1)).drop striptrailing).length) = _
        rw [htake]
      rw [hbest, hfound, hlength, length_cons, lastSome, Option.map_or, Option.or_assoc, hdrop, htake,
        Option.map_map, hpair]

theorem toInt_le_iff {c : QByte} (h : c < 128) : c.toInt ≤ 32 ↔ c ≤ 32 := by
  have hlt : c.toNat < 128 := h
  rw [BitVec.toInt_eq_toNat_of_lt (by omega), BitVec.le_def]
  exact cast_le

/-- Blanks, as a `char` tells them, where none of the characters behind is above 127. -/
theorem dropWhile_blanks (h : ∀ d ∈ (data.dropWhile isBlank).head?, d < 128) :
    (data.dropWhile fun c => c.toInt ≤ 32) = data.dropWhile isBlank := by
  induction data with
  | nil => rfl
  | cons c data ih =>
    cases hc : isBlank c with
    | true =>
      have hle : c ≤ 32 := of_decide_eq_true hc
      have hlow : c < 128 := lt_of_le_of_lt (BitVec.le_def.mp hle) (by decide)
      have hsigned : c.toInt ≤ 32 := (toInt_le_iff hlow).mpr hle
      rw [dropWhile_cons_of_pos hc] at h ⊢
      rw [dropWhile_cons, if_pos (decide_eq_true hsigned), ih h]
    | false =>
      have hneg : ¬isBlank c = true := by rw [hc]; exact Bool.false_ne_true
      rw [dropWhile_cons_of_neg hneg] at h ⊢
      have hsigned : ¬c.toInt ≤ 32 := mt (toInt_le_iff (h c rfl)).mp (of_decide_eq_false hc)
      exact dropWhile_cons_of_neg fun hd => hsigned (of_decide_eq_true hd)

theorem stripTrailing_eq_one_iff : stripTrailing data = 1 ↔ dashed data = true := by
  rw [stripTrailing, dashed, decide_eq_true_iff]
  split
  · exact iff_of_true rfl ‹_›
  · exact iff_of_false zero_ne_one ‹_›

/-- Behind an expansion the loop and the item go on at the same place. -/
theorem behind_eq {text v rest : List QByte}
    (h : (Item.mk' text v (dashed data) rest).strips = true →
      ∀ d ∈ (Item.mk' text v (dashed data) rest).rest.head?, d < 128) :
    behind (stripTrailing data) v rest = (Item.mk' text v (dashed data) rest).rest := by
  by_cases hstrip : dashed data = true ∧ v = []
  · have hitem : Item.mk' text v (dashed data) rest = ⟨text, true, rest.dropWhile isBlank⟩ := if_pos hstrip
    rw [hitem] at h ⊢
    rw [behind, if_pos ⟨stripTrailing_eq_one_iff.mpr hstrip.1, hstrip.2⟩, dropWhile_blanks (h rfl)]
  · have hitem : Item.mk' text v (dashed data) rest = ⟨text, false, rest⟩ := if_neg hstrip
    rw [hitem, behind, if_neg fun h => hstrip ⟨stripTrailing_eq_one_iff.mp h.1, h.2⟩]

/-- No character above 127 is the first one behind blanks that an item leaves out. -/
def Item.Clean (i : Item) : Prop := i.strips = true → ∀ d ∈ i.rest.head?, d < 128

/-- The end of a name in braces is at a brace, or at that of the line. -/
theorem closed_or_nil (data : List QByte) :
    (∃ rest, data.dropWhile (· ≠ 125) = 125 :: rest) ∨ data.dropWhile (· ≠ 125) = [] := by
  cases hrest : data.dropWhile (· ≠ 125) with
  | nil => exact .inr rfl
  | cons c rest =>
    have hstop := head?_dropWhile_not (· ≠ 125) data
    rw [hrest] at hstop
    have hc : c = 125 := by simpa using hstop
    exact .inl ⟨rest, by rw [hc]⟩

variable {accesslevel : Int} {quotes : ℕ}

theorem readBraced_eq (hfit : (data.takeWhile (· ≠ 125)).length ≤ bufSize - 3)
    (h : readBraced env o data quotes accesslevel = some (p, rd')) (body rest : List QByte)
    (hbody : data.takeWhile (· ≠ 125) = body) (hrest : data.dropWhile (· ≠ 125) = rest) :
    (p, rd'.data) = namePiece (stripTrailing data) (123 :: (body ++ rest.take 1))
        ((value env o rest (body.drop (stripTrailing data)) true).map fun str => (str, (body ++ rest.take 1).length + 1))
        (rest.drop 1) ∧ rd'.quotes = quotes := by
  obtain ⟨-, h⟩ := ite_none_right_eq_some.mp h
  obtain ⟨rfl, rfl⟩ := Prod.mk.inj (some.inj h)
  subst hbody
  rw [take_of_length_le hfit, add_comm 1, drop_succ_cons, lookup_fst, hrest]
  refine ⟨?_, rfl⟩
  obtain ⟨tail, hclosed⟩ | hopen := closed_or_nil data
  · obtain rfl : rest = 125 :: tail := hrest.symm.trans hclosed
    rfl
  · obtain rfl : rest = [] := hrest.symm.trans hopen
    rw [take_nil, append_nil]
    rfl

/-- A name in braces is read as its item, where the buffer holds it. -/
theorem readBraced_item (hfit : (data.takeWhile (· ≠ 125)).length ≤ bufSize - 3)
    (hclean : (braceItem env o data).Clean) (h : readBraced env o data quotes accesslevel = some (p, rd')) :
    p.text = (braceItem env o data).text ∧ rd'.data = (braceItem env o data).rest ∧ rd'.quotes = quotes := by
  obtain ⟨hpiece, hquotes⟩ := readBraced_eq hfit h _ _ rfl rfl
  rw [braceItem] at hclean ⊢
  cases hvalue : value env o (data.dropWhile (· ≠ 125)) ((data.takeWhile (· ≠ 125)).drop (stripTrailing data)) true with
  | some v =>
    rw [hvalue] at hpiece hclean
    obtain ⟨rfl, hdata⟩ := Prod.mk.inj hpiece
    refine ⟨?_, hdata.trans (behind_eq hclean), hquotes⟩
    rw [text_mk', Piece.text, drop_succ_cons, drop_length, append_nil]
  | none =>
    rw [hvalue] at hpiece
    obtain ⟨rfl, hdata⟩ := Prod.mk.inj hpiece
    exact ⟨rfl, hdata, hquotes⟩

/-- A name behind `-` has a value. -/
def StrayName (env : Env) (o : Options) (data : List QByte) : Prop := dashed data = true ∧ (longest env o data).isSome

/-- A name without braces is read as its item, but for the last character of what a `-` was before. -/
theorem readName_item (hbrace : data.head? ≠ some 123)
    (hclean : (nameItem env o data).Clean) (h : readName env o data quotes accesslevel = some (p, rd')) :
    (rd'.data = (nameItem env o data).rest ∧ rd'.quotes = quotes) ∧
      (¬StrayName env o data → p.text = (nameItem env o data).text) ∧
      (StrayName env o data → ∃ v d tail, p.text = v ++ d :: tail ∧ (nameItem env o data).text = v ++ tail ∧
        ∀ c ∈ d :: tail, isNameChar c = true) := by
  obtain ⟨⟨g, rest⟩, hscan, h⟩ := map_eq_some_iff.mp h
  obtain ⟨hp, rfl⟩ := Prod.mk.inj h
  obtain ⟨hrest, hbuf, hbest⟩ := scanName_eq (f := ⟨[], none, accesslevel⟩) hbrace hscan
  have hname : g.buf = data.takeWhile isNameChar := hbuf
  have hfound : g.best = (longest env o data).map fun r => (r.2, ((g.buf.take r.1).drop (stripTrailing data)).length) := by
    rw [hbest, or_none, longest, hname, hrest]
    rfl
  rw [nameItem] at hclean ⊢
  cases hlongest : longest env o data with
  | none =>
    have hnone : g.best = none := by rw [hfound, hlongest, map_none]
    rw [hnone, hrest, hname] at hp
    rw [hnone, hrest]
    subst hp
    refine ⟨⟨rfl, rfl⟩, fun _ => rfl, fun hstray => ?_⟩
    have hsome := hstray.2
    rw [hlongest] at hsome
    exact absurd hsome Bool.false_ne_true
  | some r =>
    obtain ⟨i, v⟩ := r
    rw [hlongest] at hclean
    obtain ⟨hpos, hlt, -⟩ := lastSome_eq_some hlongest
    have hle : i ≤ g.buf.length := by rw [hname]; omega
    have hsome : g.best = some (v, i - stripTrailing data) := by
      rw [hfound, hlongest, map_some, length_drop, length_take_of_le hle]
    rw [hsome, hrest] at hp
    rw [hsome, hrest]
    subst hp
    refine ⟨⟨behind_eq hclean, rfl⟩, fun hclear => ?_, fun hstray => ?_⟩
    · have hdash : ¬dashed data = true := fun hdash => hclear ⟨hdash, by rw [hlongest]; rfl⟩
      have hzero : stripTrailing data = 0 := if_neg fun hhead => hdash (decide_eq_true hhead)
      rw [hzero, text_mk', ← hname]
      rfl
    · have hone : stripTrailing data = 1 := stripTrailing_eq_one_iff.mpr hstray.1
      have hlast : i - 1 < g.buf.length := by omega
      have hcons : g.buf.drop (i - 1) = g.buf[i - 1] :: g.buf.drop i := by
        rw [drop_eq_getElem_cons hlast, Nat.sub_add_cancel hpos]
      refine ⟨v, g.buf[i - 1], g.buf.drop i, ?_, ?_, fun c hc => ?_⟩
      · rw [hone, ← hcons]
        rfl
      · rw [text_mk', ← hname]
      · rw [← hcons] at hc
        exact mem_takeWhile_imp (hname ▸ mem_of_mem_drop hc)

/-- A `$` is expanded at a place. -/
def Expanding (env : Env) (rd : Reading) : Prop := rd.quotes % 2 = 0 ∨ env.dpcompatConsole = true

/-- The buffer holds the name in braces at a place. -/
def BodyFits (env : Env) (rd : Reading) : Prop :=
  ∀ data, rd.data = 36 :: 123 :: data → Expanding env rd → (data.takeWhile (· ≠ 125)).length ≤ bufSize - 3

/-- At a place is a `$-`, and a name behind it that has a value. -/
def Stray (env : Env) (o : Options) (rd : Reading) : Prop :=
  ∃ data, rd.data = 36 :: data ∧ Expanding env rd ∧ StrayName env o data

/-- A piece is read as the item of its place, but for a stray character of the name. -/
structure ReadsItem (env : Env) (o : Options) (rd : Reading) (i : Item) (p : Piece) (rest : List QByte) : Prop where
  rest_eq : rest = i.rest
  text_eq : ¬Stray env o rd → p.text = i.text
  stray : Stray env o rd → ∃ v d tail, p.text = v ++ d :: tail ∧ i.text = v ++ tail ∧ ∀ c ∈ d :: tail, isNameChar c = true

namespace ReadsItem

variable {i : Item} {rest : List QByte}

theorem length_lt (h : ReadsItem env o rd i p rest) (hstray : Stray env o rd) : i.text.length < p.text.length := by
  obtain ⟨v, d, tail, hp, hi, -⟩ := h.stray hstray
  rw [hp, hi, length_append, length_append, length_cons]
  exact lt_succ_self _

theorem length_le (h : ReadsItem env o rd i p rest) : i.text.length ≤ p.text.length := by
  by_cases hstray : Stray env o rd
  · exact (h.length_lt hstray).le
  · rw [h.text_eq hstray]

theorem zero_notMem (h : ReadsItem env o rd i p rest) (hzero : 0 ∉ i.text) : 0 ∉ p.text := by
  by_cases hstray : Stray env o rd
  · obtain ⟨v, d, tail, hp, hi, hname⟩ := h.stray hstray
    rw [hi, mem_append, not_or] at hzero
    rw [hp, mem_append, not_or]
    exact ⟨hzero.1, fun hmem => absurd (hname 0 hmem) (by decide)⟩
  · rwa [h.text_eq hstray]

/-- A stray character is not before a carriage return at the end. -/
theorem text_eq_of_getLast? (h : ReadsItem env o rd i p rest) (hlast : p.text.getLast? = some 13) : p.text = i.text := by
  refine h.text_eq fun hstray => ?_
  obtain ⟨v, d, tail, hp, -, hname⟩ := h.stray hstray
  rw [hp, getLast?_append_of_ne_nil _ (cons_ne_nil d tail)] at hlast
  exact absurd (hname 13 (mem_of_getLast? hlast)) (by decide)

end ReadsItem

theorem readsItem_of_clear {i : Item} {rest : List QByte} (hclear : ¬Stray env o rd) (hrest : rest = i.rest)
    (htext : p.text = i.text) : ReadsItem env o rd i p rest :=
  ⟨hrest, fun _ => htext, fun hstray => absurd hstray hclear⟩

theorem not_stray_of_head {c : QByte} (hdata : rd.data = 36 :: data) (hhead : data.head? = some c) (hc : c ≠ 45) :
    ¬Stray env o rd := by
  rintro ⟨data', hdata', -, hdash, -⟩
  obtain rfl : data = data' := (List.cons.inj (hdata.symm.trans hdata')).2
  exact hc (some.inj (hhead.symm.trans (of_decide_eq_true hdash)))

theorem readDollar_item (hdata : rd.data = 36 :: data) (hexpanding : Expanding env rd) (hfit : BodyFits env rd)
    (hclean : (dollarItem env o data).Clean) (h : readDollar env o data rd.quotes rd.accesslevel = some (p, rd')) :
    ReadsItem env o rd (dollarItem env o data) p rd'.data ∧ rd'.quotes = rd.quotes := by
  rw [readDollar] at h
  rw [dollarItem] at hclean ⊢
  by_cases hdouble : data.head? = some 36
  · rw [if_pos hdouble] at h ⊢
    cases h
    exact ⟨readsItem_of_clear (not_stray_of_head hdata hdouble (by decide)) rfl rfl, rfl⟩
  rw [if_neg hdouble] at h hclean ⊢
  by_cases hbrace : data.head? = some 123
  · rw [if_pos hbrace] at h hclean ⊢
    obtain ⟨body, rfl⟩ := head?_eq_some_iff.mp hbrace
    obtain ⟨htext, hrest, hquotes⟩ := readBraced_item (hfit body hdata hexpanding) hclean h
    exact ⟨readsItem_of_clear (not_stray_of_head hdata hbrace (by decide)) hrest htext, hquotes⟩
  · rw [if_neg hbrace] at h hclean ⊢
    obtain ⟨⟨hrest, hquotes⟩, htext, hstray⟩ := readName_item hbrace hclean h
    refine ⟨⟨hrest, fun hclear => htext fun hname => hclear ⟨data, hdata, hexpanding, hname⟩, ?_⟩, hquotes⟩
    rintro ⟨data', hdata', -, hname⟩
    obtain rfl : data = data' := (List.cons.inj (hdata.symm.trans hdata')).2
    exact hstray hname

/-- Every round reads the item of its place. -/
theorem read_item {c : QByte} (hdata : rd.data = c :: data) (hfit : BodyFits env rd)
    (hclean : (item env o c data rd.quotes).Clean) (h : read env o rd = some (p, rd')) :
    ReadsItem env o rd (item env o c data rd.quotes) p rd'.data ∧ rd'.quotes = countQuotes c rd.quotes := by
  by_cases hdollar : c = 36 ∧ Expanding env rd
  · obtain ⟨rfl, hexpanding⟩ := hdollar
    have hcount : countQuotes 36 rd.quotes = rd.quotes := if_neg (by decide)
    have hitem : item env o 36 data rd.quotes = dollarItem env o data := by
      rw [item, if_neg fun hpercent => absurd hpercent.1 (by decide), hcount, if_pos ⟨rfl, hexpanding⟩]
    rw [hitem] at hclean ⊢
    rw [hcount]
    rw [read_dollar o hdata hexpanding] at h
    exact readDollar_item hdata hexpanding hfit hclean h
  · have hclear : ¬Stray env o rd := by
      rintro ⟨data', hdata', hexpanding, -⟩
      exact hdollar ⟨(List.cons.inj (hdata.symm.trans hdata')).1, hexpanding⟩
    have hcount : ¬(c = 36 ∧ (countQuotes c rd.quotes % 2 = 0 ∨ env.dpcompatConsole = true)) := by
      rintro ⟨rfl, hexpanding⟩
      exact hdollar ⟨rfl, hexpanding⟩
    rw [read, hdata] at h
    change (if c = 37 ∧ countQuotes c rd.quotes % 2 = 0 ∧ (!env.dpcompatConsole) = true ∧ o.expandargs = true then
        some (Piece.expansion (readPercent env data).1 [],
          Reading.mk (readPercent env data).2 (countQuotes c rd.quotes) rd.accesslevel)
      else if c = 36 ∧ (countQuotes c rd.quotes % 2 = 0 ∨ env.dpcompatConsole = true) then
        readDollar env o data (countQuotes c rd.quotes) rd.accesslevel
      else some (Piece.char c, Reading.mk data (countQuotes c rd.quotes) rd.accesslevel)) = _ at h
    rw [item]
    rw [if_neg hcount] at h ⊢
    split_ifs at h ⊢
    · cases h
      exact ⟨readsItem_of_clear hclear rfl (append_nil _), rfl⟩
    · cases h
      exact ⟨readsItem_of_clear hclear rfl rfl, rfl⟩

end Pieces

/-! ## The line that comes out -/

section Line

open Relation Mem

variable (env : Env) (o : Options)

/-- A round goes on from a place to another. -/
def Reads (a b : Reading) : Prop := ∃ p, read env o a = some (p, b)

/-- What the pieces of a line are together. -/
inductive Expands : Reading → List QByte → Prop
  | nil {rd : Reading} (h : rd.data = []) : Expands rd []
  | cons {rd rd' : Reading} {p : Piece} {text : List QByte} (h : read env o rd = some (p, rd'))
      (rest : Expands rd' text) : Expands rd (p.text ++ text)

/-- What the loop writes for a line fits in `dest`, of which its tests leave a character free, and names in
braces fit in the buffer. -/
structure LineFits (destlen : ℕ) (rd : Reading) : Prop where
  dest : ∃ text, Expands env o rd text ∧ text.length + 1 < destlen
  bodies : ∀ rd', ReflTransGen (Reads env o) rd rd' → BodyFits env rd'

/-- No character above 127 is behind blanks that the item at a place leaves out. -/
def BlanksClean (rd : Reading) : Prop := ∀ c data, rd.data = c :: data → (item env o c data rd.quotes).Clean

/-- A character is a stray one somewhere in the line. -/
def HasStray (rd : Reading) : Prop := ∃ rd', ReflTransGen (Reads env o) rd rd' ∧ Stray env o rd'

variable {env o} {rd rd' : Reading} {p : Piece} {text : List QByte}

theorem hasStray_iff (h : read env o rd = some (p, rd')) : HasStray env o rd ↔ Stray env o rd ∨ HasStray env o rd' := by
  constructor
  · rintro ⟨b, hb, hstray⟩
    rcases hb.cases_head with rfl | ⟨a, ⟨q, ha⟩, hrest⟩
    · exact .inl hstray
    · obtain ⟨-, rfl⟩ := Prod.mk.inj (some.inj (h.symm.trans ha))
      exact .inr ⟨b, hrest, hstray⟩
  · rintro (hstray | ⟨b, hb, hstray⟩)
    · exact ⟨rd, .refl, hstray⟩
    · exact ⟨b, .head ⟨p, h⟩ hb, hstray⟩

/-- At every place of the line the buffer holds a name in braces, and the blanks are clean. -/
def Regular (env : Env) (o : Options) (rd : Reading) : Prop :=
  ∀ rd', ReflTransGen (Reads env o) rd rd' → BodyFits env rd' ∧ BlanksClean env o rd'

theorem Regular.read (h : Regular env o rd) (hread : read env o rd = some (p, rd')) : Regular env o rd' :=
  fun b hb => h b (.head ⟨p, hread⟩ hb)

/-- A round reads an item, and the line means that and the rest. -/
theorem meaning_of_read (hregular : Regular env o rd) (h : read env o rd = some (p, rd')) :
    ∃ c data, rd.data = c :: data ∧ ReadsItem env o rd (item env o c data rd.quotes) p rd'.data ∧
      meaning env o rd.data rd.quotes =
        (item env o c data rd.quotes).text ++ meaning env o rd'.data rd'.quotes := by
  cases hdata : rd.data with
  | nil =>
    rw [read, hdata] at h
    cases h
  | cons c data =>
    obtain ⟨hfit, hclean⟩ := hregular rd .refl
    obtain ⟨hitem, hquotes⟩ := read_item hdata hfit (hclean c data hdata) h
    exact ⟨c, data, rfl, hitem, by rw [meaning, hitem.rest_eq, hquotes]⟩

/-- Without stray characters, the line becomes what it means. -/
theorem Expands.eq_meaning (h : Expands env o rd text) (hregular : Regular env o rd) (hclear : ¬HasStray env o rd) :
    text = meaning env o rd.data rd.quotes := by
  induction h with
  | nil hdata => rw [hdata, meaning]
  | cons hread _ ih =>
    obtain ⟨c, data, -, hitem, hmeaning⟩ := meaning_of_read hregular hread
    rw [hasStray_iff hread, not_or] at hclear
    rw [hmeaning, hitem.text_eq hclear.1, ih (hregular.read hread) hclear.2]

theorem Expands.zero_notMem (h : Expands env o rd text) (hregular : Regular env o rd) (henv : env.IsText)
    (hzero : 0 ∉ rd.data) : 0 ∉ text := by
  induction h with
  | nil => exact not_mem_nil
  | cons hread _ ih =>
    obtain ⟨c, data, hdata, hitem, -⟩ := meaning_of_read hregular hread
    rw [hdata] at hzero
    have hrest := ih (hregular.read hread) fun hmem =>
      hzero (mem_cons_of_mem c ((rest_item_suffix env o c data _).subset (hitem.rest_eq ▸ hmem)))
    rw [mem_append, not_or]
    exact ⟨hitem.zero_notMem (zero_notMem_item henv hzero _), hrest⟩

theorem Expands.length_meaning_le (h : Expands env o rd text) (hregular : Regular env o rd) :
    (meaning env o rd.data rd.quotes).length ≤ text.length := by
  induction h with
  | nil hdata => rw [hdata, meaning]
  | cons hread _ ih =>
    obtain ⟨c, data, -, hitem, hmeaning⟩ := meaning_of_read hregular hread
    rw [hmeaning, length_append, length_append]
    exact Nat.add_le_add hitem.length_le (ih (hregular.read hread))

/-- A stray character makes the line longer than what it means. -/
theorem Expands.length_meaning_lt (h : Expands env o rd text) (hregular : Regular env o rd)
    (hstray : HasStray env o rd) : (meaning env o rd.data rd.quotes).length < text.length := by
  induction h with
  | nil hdata =>
    obtain ⟨b, hb, c, hdata', -⟩ := hstray
    rcases hb.cases_head with rfl | ⟨a, ⟨q, ha⟩, -⟩
    · rw [hdata] at hdata'
      cases hdata'
    · rw [CmdExpand.read, hdata] at ha
      cases ha
  | cons hread hexpands ih =>
    obtain ⟨c, data, -, hitem, hmeaning⟩ := meaning_of_read hregular hread
    rw [hmeaning, length_append, length_append]
    rcases (hasStray_iff hread).mp hstray with hstray | hstray
    · exact add_lt_add_of_lt_of_le (hitem.length_lt hstray) (hexpands.length_meaning_le (hregular.read hread))
    · exact add_lt_add_of_le_of_lt hitem.length_le (ih (hregular.read hread) hstray)

/-- A carriage return at the end is there in what the line means. -/
theorem Expands.getLast?_meaning (h : Expands env o rd text) (hregular : Regular env o rd)
    (hlast : text.getLast? = some 13) : (meaning env o rd.data rd.quotes).getLast? = some 13 := by
  induction h with
  | nil => cases hlast
  | cons hread hexpands ih =>
    rename_i rd rd' p text
    obtain ⟨c, data, -, hitem, hmeaning⟩ := meaning_of_read hregular hread
    rw [hmeaning]
    by_cases htext : text = []
    · subst htext
      rw [append_nil] at hlast
      have hrest : meaning env o rd'.data rd'.quotes = [] :=
        eq_nil_of_length_eq_zero (le_zero.mp (hexpands.length_meaning_le (hregular.read hread)))
      rw [hrest, append_nil, ← hitem.text_eq_of_getLast? hlast, hlast]
    · rw [getLast?_append_of_ne_nil _ htext] at hlast
      have hrest := ih (hregular.read hread) hlast
      rw [getLast?_append, hrest]
      rfl

theorem length_dropCr_lt {s t : List QByte} (h : s.length < t.length)
    (hlast : t.getLast? = some 13 → s.getLast? = some 13) : (dropCr s).length < (dropCr t).length := by
  have hle : (dropCr s).length ≤ s.length := by
    rw [dropCr]
    split
    · rw [length_dropLast]
      exact sub_le _ _
    · exact le_rfl
  by_cases hcr : t.getLast? = some 13
  · have hpos : 0 < s.length := length_pos_iff.mpr fun hs => by rw [hs] at hlast; cases hlast hcr
    rw [dropCr, dropCr, if_pos hcr, if_pos (hlast hcr), length_dropLast, length_dropLast]
    omega
  · rw [dropCr.eq_def t, if_neg hcr]
    exact hle.trans_lt h

variable {destlen : ℕ} {dest : Mem QByte} {s : List QByte}

theorem slice_blit_text (h : dest.slice 0 s.length = s) (t u : List QByte) :
    (dest.blit s.length (t ++ u)).slice 0 (s ++ t).length = s ++ t := by
  have happend := slice_blit_append dest 0 s.length t
  rw [zero_add, h, ← length_append] at happend
  rw [blit_append, slice_blit_before _ _ (by rw [length_append, zero_add]), happend]

/-- A piece with room behind it is written behind what there is. -/
theorem write_text (hdest : dest.slice 0 s.length = s) (hfit : s.length + p.text.length + 1 < destlen) :
    ∃ dest', p.write destlen dest s.length = some (false, dest', (s ++ p.text).length) ∧
      dest'.slice 0 (s ++ p.text).length = s ++ p.text := by
  cases p with
  | expansion str tail =>
    have hlength : (Piece.expansion str tail).text.length = str.length + tail.length := length_append
    have hroom : ¬s.length + str.length ≥ destlen - 1 := by omega
    have hstr : s.length + (str ++ [0]).length ≤ destlen := by
      rw [length_append, length_singleton]
      omega
    have hsum : s.length + str.length = (s ++ str).length := length_append.symm
    have hwritten := slice_blit_text (slice_blit_text hdest str [0]) tail []
    rw [append_nil] at hwritten
    refine ⟨(dest.blit s.length (str ++ [0])).blit (s ++ str).length tail, ?_, ?_⟩
    · rw [Piece.write, if_neg hroom, puts_of_le hstr, bind_some, puts_of_le (by omega), map_some, hsum,
        ← length_append, append_assoc]
      rfl
    · rwa [append_assoc] at hwritten
  | dollar buf =>
    have hlength : (Piece.dollar buf).text.length = buf.length + 1 := length_cons
    have hroom : ¬s.length + 1 + buf.length ≥ destlen - 1 := by omega
    have hbuf : s.length + 1 + (buf ++ [0]).length ≤ destlen := by
      rw [length_append, length_singleton]
      omega
    have hdollar := slice_blit_text hdest [36] []
    have hsum : s.length + 1 = (s ++ [36]).length := by rw [length_append, length_singleton]
    refine ⟨(dest.blit s.length [36]).blit (s ++ [36]).length (buf ++ [0]), ?_, ?_⟩
    · rw [Piece.write, put_of_lt (by omega), bind_some, if_neg hroom, puts_of_le hbuf, map_some, hsum,
        ← length_append, append_assoc]
      rfl
    · have hwritten := slice_blit_text hdollar buf [0]
      rwa [append_assoc] at hwritten
  | char c =>
    have hlength : (Piece.char c).text.length = 1 := rfl
    have hroom : ¬s.length + 1 ≥ destlen - 1 := by omega
    refine ⟨dest.blit s.length [c], ?_, slice_blit_text hdest [c] []⟩
    rw [Piece.write, put_of_lt (by omega), map_some, decide_eq_false hroom, length_append]
    rfl

/-- The loop writes the pieces of a line that fits one behind the other. -/
theorem Expands.loop (h : Expands env o rd text) {n : ℕ} (hn : rd.data.length < n) (hdest : dest.slice 0 s.length = s)
    (hfit : (s ++ text).length + 1 < destlen) :
    ∃ dest' accesslevel, expandLoop env o destlen n rd dest s.length = some (dest', (s ++ text).length, accesslevel) ∧
      dest'.slice 0 (s ++ text).length = s ++ text := by
  induction h generalizing n s dest with
  | nil hdata =>
    rw [append_nil] at hfit ⊢
    cases n with
    | zero => exact absurd hn (not_lt_zero _)
    | succ n => exact ⟨dest, _, by rw [expandLoop, if_pos hdata], hdest⟩
  | cons hread hexpands ih =>
    rename_i rd rd' p text
    cases n with
    | zero => exact absurd hn (not_lt_zero _)
    | succ n =>
      have hdata : rd.data ≠ [] := by
        intro hdata
        rw [CmdExpand.read, hdata] at hread
        cases hread
      have hlt := length_read_lt hread
      have hpiece : s.length + p.text.length + 1 < destlen := by
        rw [length_append, length_append] at hfit
        omega
      rw [← append_assoc] at hfit ⊢
      obtain ⟨dest', hwrite, hdest'⟩ := write_text hdest hpiece
      obtain ⟨dest'', accesslevel, hloop, hdest''⟩ := ih (n := n) (by omega) hdest' hfit
      refine ⟨dest'', accesslevel, ?_, hdest''⟩
      rw [expandLoop, if_neg hdata, hread, bind_some, hwrite, bind_some, if_neg Bool.false_ne_true, hloop]

/-- The end of the string leaves out a carriage return. -/
theorem finish_dropCr (htext : 0 ∉ text) (hdest : dest.slice 0 text.length = text) (hfit : text.length < destlen)
    (accesslevel : Int) : ∃ dest', finish destlen (dest, text.length, accesslevel) = some (dest', accesslevel) ∧
      dest'.Holds 0 (dropCr text) := by
  have hholds : (dest.blit text.length [0]).Holds 0 text := by
    rw [holds_iff, slice_blit_before _ _ (zero_add _).le, hdest, zero_add]
    exact ⟨htext, rfl, blit_apply_add dest text.length [0] one_pos⟩
  rw [finish, put_of_lt hfit, bind_some]
  rcases eq_nil_or_concat text with rfl | ⟨init, c, rfl⟩
  · exact ⟨_, if_neg fun h => h.1 rfl, hholds⟩
  · rw [concat_eq_append] at *
    have hlength : (init ++ [c]).length = init.length + 1 := length_append
    have hlast := hholds.apply_of_lt (i := init.length) (by omega)
    rw [zero_add, getElem_concat_length rfl] at hlast
    have hchars := hholds.chars
    rw [hlength] at hholds hlast hchars
    rw [slice_add] at hchars
    rw [hlength, Nat.add_sub_cancel, dropCr, getLast?_append, getLast?_singleton, some_or, dropLast_concat]
    by_cases hcr : c = 13
    · rw [if_pos ⟨succ_ne_zero _, hlast.trans hcr⟩, put_of_lt (by omega), if_pos (congrArg some hcr), map_some]
      have hinit : 0 ∉ init := fun h => htext (mem_append_left _ h)
      refine ⟨_, rfl, ?_⟩
      rw [holds_iff, slice_blit_before _ _ (zero_add _).le, zero_add]
      exact ⟨hinit, (append_inj hchars (length_slice _ _ _)).1, blit_apply_add _ init.length [0] one_pos⟩
    · rw [if_neg fun h => hcr (hlast.symm.trans h.2), if_neg fun h => hcr (some.inj h)]
      exact ⟨_, rfl, hholds⟩

end Line

/-- **A line that fits, with clean blanks, becomes what it means exactly where it has no name behind `$-`
without braces, a start of which has a value.** -/
theorem expand_means_iff (env : Env) (henv : env.IsText) (expandargs expandcvars expandmacros : Bool)
    {line : List QByte} (hline : 0 ∉ line) (dest : Mem QByte) {destlen : ℕ} (accesslevel : Int)
    (hfits : LineFits env ⟨accesslevel, expandargs, expandcvars, expandmacros⟩ destlen ⟨line, 0, accesslevel⟩)
    (hclean : ∀ rd, Relation.ReflTransGen (Reads env ⟨accesslevel, expandargs, expandcvars, expandmacros⟩)
      ⟨line, 0, accesslevel⟩ rd → BlanksClean env ⟨accesslevel, expandargs, expandcvars, expandmacros⟩ rd) :
    (∃ dest' level, cmdExpandString env expandargs expandcvars expandmacros line dest destlen accesslevel =
        some (dest', level) ∧
      dest'.Holds 0 (dropCr (meaning env ⟨accesslevel, expandargs, expandcvars, expandmacros⟩ line 0))) ↔
      ∀ rd, Relation.ReflTransGen (Reads env ⟨accesslevel, expandargs, expandcvars, expandmacros⟩)
        ⟨line, 0, accesslevel⟩ rd → ¬Stray env ⟨accesslevel, expandargs, expandcvars, expandmacros⟩ rd := by
  obtain ⟨⟨text, hexpands, htext⟩, hbodies⟩ := hfits
  have hregular : Regular env _ _ := fun rd hrd => ⟨hbodies rd hrd, hclean rd hrd⟩
  have hzero : 0 ∉ text := hexpands.zero_notMem hregular henv hline
  obtain ⟨dest₁, level, hloop, hdest₁⟩ := hexpands.loop (s := []) (Nat.lt_succ_self _) (Mem.slice_zero dest 0) htext
  obtain ⟨dest₂, hfinish, hholds⟩ := finish_dropCr hzero hdest₁ (Nat.lt_of_succ_lt htext) level
  have hrun : cmdExpandString env expandargs expandcvars expandmacros line dest destlen accesslevel =
      some (dest₂, level) := by
    rw [cmdExpandString]
    exact (congrArg (Option.bind · (finish destlen)) hloop).trans hfinish
  constructor
  · rintro ⟨dest', level', hrun', hmeaning⟩ rd hrd hstray
    obtain ⟨rfl, -⟩ := Prod.mk.inj (Option.some.inj (hrun.symm.trans hrun'))
    have hlt := length_dropCr_lt (hexpands.length_meaning_lt hregular ⟨rd, hrd, hstray⟩)
      (hexpands.getLast?_meaning hregular)
    rw [hholds.unique hmeaning] at hlt
    exact lt_irrefl _ hlt
  · intro hclear
    have heq := hexpands.eq_meaning hregular fun ⟨rd, hrd, hstray⟩ => hclear rd hrd hstray
    exact ⟨dest₂, level, hrun, heq ▸ hholds⟩

theorem oneCvar_isText : oneCvar.IsText where
  args := not_mem_nil
  argv _ := not_mem_nil
  cvars _ term _ _ s hs := by
    obtain ⟨-, hs⟩ := ite_none_right_eq_some.mp hs
    obtain rfl := some.inj hs
    decide
  macros _ _ _ hs := nomatch hs

variable {env : Env} {o : Options}

/-- Where a round reads the whole line, no other places are reached. -/
theorem reached_cases {rd rd' b : Reading} {p : Piece} (h : read env o rd = some (p, rd'))
    (hend : rd'.data = []) (hb : Relation.ReflTransGen (Reads env o) rd b) : b = rd ∨ b = rd' := by
  rcases hb.cases_head with rfl | ⟨a, ⟨q, ha⟩, hrest⟩
  · exact .inl rfl
  obtain ⟨-, rfl⟩ := Prod.mk.inj (some.inj (h.symm.trans ha))
  rcases hrest.cases_head with rfl | ⟨c, ⟨q', hc⟩, -⟩
  · exact .inr rfl
  · rw [read, hend] at hc
    cases hc

/-- A line of one name fits, and its blanks are clean. -/
theorem lineFits_name {rd rd' : Reading} {p : Piece} {destlen : ℕ} {data : List QByte}
    (hdata : rd.data = 36 :: data) (hhead : data.head? ≠ some 123) (h : read env o rd = some (p, rd'))
    (hend : rd'.data = []) (hfit : p.text.length + 1 < destlen) : LineFits env o destlen rd where
  dest := ⟨p.text ++ [], .cons h (.nil hend), by rwa [append_nil]⟩
  bodies b hb body hbody _ := by
    rcases reached_cases h hend hb with rfl | rfl
    · obtain rfl : data = 123 :: body := (List.cons.inj (hdata.symm.trans hbody)).2
      exact absurd rfl hhead
    · rw [hend] at hbody
      cases hbody

theorem meaning_of_rest_nil {c : QByte} {data : List QByte} {quotes : ℕ} (h : (item env o c data quotes).rest = []) :
    meaning env o (c :: data) quotes = (item env o c data quotes).text := by
  rw [meaning, h, meaning, append_nil]

/-- `$ab` becomes `xyzb`. -/
theorem expand_means_start :
    ∃ dest' level, cmdExpandString oneCvar false true true [36, 97, 98] (fun _ => 0) 64 0 = some (dest', level) ∧
      dest'.Holds 0 (dropCr (meaning oneCvar ⟨0, false, true, true⟩ [36, 97, 98] 0)) := by
  have hread : read oneCvar ⟨0, false, true, true⟩ ⟨[36, 97, 98], 0, 0⟩ =
      some (.expansion [120, 121, 122] [98], ⟨[], 0, 0⟩) := rfl
  refine (expand_means_iff oneCvar oneCvar_isText false true true (by decide) (fun _ => 0) 0
    (lineFits_name rfl (by decide) hread rfl (by decide)) fun rd hrd => ?_).mpr fun rd hrd => ?_
  · rcases reached_cases hread rfl hrd with rfl | rfl
    · rintro c data hdata hstrips
      cases hdata
      cases hstrips
    · exact fun _ _ hdata => nomatch hdata
  · rcases reached_cases hread rfl hrd with rfl | rfl
    · exact not_stray_of_head rfl rfl (by decide)
    · exact fun ⟨_, hdata, _⟩ => nomatch hdata

/-- `$-a` fits, and means `xyz`, but becomes `xyza`. -/
theorem expand_not_means :
    LineFits oneCvar ⟨0, false, true, true⟩ 64 ⟨[36, 45, 97], 0, 0⟩ ∧
    meaning oneCvar ⟨0, false, true, true⟩ [36, 45, 97] 0 = [120, 121, 122] ∧
    ∃ dest', cmdExpandString oneCvar false true true [36, 45, 97] (fun _ => 0) 64 0 = some (dest', 0) ∧
      dest'.Holds 0 [120, 121, 122, 97] := by
  have hread : read oneCvar ⟨0, false, true, true⟩ ⟨[36, 45, 97], 0, 0⟩ =
      some (.expansion [120, 121, 122] [97], ⟨[], 0, 0⟩) := rfl
  exact ⟨lineFits_name rfl (by decide) hread rfl (by decide), (meaning_of_rest_nil rfl).trans rfl,
    _, rfl, by decide, rfl⟩

end CmdExpand

end FteQuake
