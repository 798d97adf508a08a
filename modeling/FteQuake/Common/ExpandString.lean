import FteQuake.Common.Sizebuf
import FteQuake.Lib.BoundedMemory
import Mathlib.Logic.Relation

/-!
# The expansion of a command line

`Cmd_ExpandString` of `cmd.c`. Every round of its loop reads a piece of the line and writes it to `dest`:
an expansion, a `$` with a name that has none, or a character. A store outside `dest`, or outside the
buffer of 255 characters that names are read into, fails.

What a name expands to is a parameter (`Env`): the string of `Cmd_ExpandCvar`, which gives the length of
its term with it, and that of `TP_MacroString`. They are told what is left of the line, since the same
name may have another value later. `quotes` counts on, and a `char` is signed.

The loop tests the space for expansions, and not that for the rest of a name behind a match, nor the
length of a name. So it stays in its buffers exactly where these fit at every piece it comes to
(`expand_inside_iff`).
-/

namespace FteQuake

open Option Nat

namespace CmdExpand

open Mem

/-! ## Reading -/

/-- What a line is expanded with: the arguments of the command, the cvars and the macros. The flags say
that the access level was lowered. -/
structure Env where
  dpcompatConsole : Bool
  cmdArgs : List QByte
  cmdArgv : Int → List QByte
  expandCvar : (data cvarterm : List QByte) → (maxaccesslevel : Int) → (enclosed : Bool) → Option (List QByte) × Bool
  macroString : (data s : List QByte) → Option (List QByte) × Bool

/-- The arguments of `Cmd_ExpandString` that do not change. -/
structure Options where
  maxaccesslevel : Int
  expandargs : Bool
  expandcvars : Bool
  expandmacros : Bool

/-- Where the loop is in the line. -/
structure Reading where
  data : List QByte
  quotes : ℕ
  accesslevel : Int

/-- A piece of the line. Behind an expansion comes what is left of the name. -/
inductive Piece
  | expansion (str tail : List QByte)
  | dollar (buf : List QByte)
  | char (c : QByte)
  deriving DecidableEq, Repr

/-- `sizeof(buf)`. -/
def bufSize : ℕ := 255

/-- `va("\"%s\"", ...)`. -/
def vaQuoted (s : List QByte) : List QByte := (34 :: s ++ [34]).take 8190

/-- `isspace`. -/
def isSpace (c : QByte) : Bool := c = 32 || (9 ≤ c && c ≤ 13)

def isDigit (c : QByte) : Bool := 48 ≤ c && c ≤ 57

/-- What `strtol` reads digits from: the text behind blanks and a sign. -/
def strtolText (s : List QByte) : List QByte :=
  let text := s.dropWhile isSpace
  if text.head? = some 45 ∨ text.head? = some 43 then text.drop 1 else text

/-- `strtol(s, &end, 10)`: the value, as the `int` it is kept in, and what follows. -/
def strtol (s : List QByte) : Int × List QByte :=
  let digits := (strtolText s).takeWhile isDigit
  let n : ℕ := digits.foldl (fun n c => n * 10 + (c.toNat - 48)) 0
  let value : Int := if (s.dropWhile isSpace).head? = some 45 then max (-n) (-2 ^ 63) else min n (2 ^ 63 - 1)
  if digits = [] then (0, s) else ((BitVec.ofInt 32 value).toInt, (strtolText s).dropWhile isDigit)

/-- An argument behind `%`: its string, and the rest of the line. -/
def readPercent (env : Env) (data : List QByte) : List QByte × List QByte :=
  if data.head? = some 37 then ([37], data.drop 1)
  else if data.head? = some 35 then (vaQuoted env.cmdArgs, data.drop 1)
  else if data.head? = some 42 then (env.cmdArgs, data.drop 1)
  else
    let r := strtol data
    if r.1 ≠ 0 ∨ (r.2 ≠ data ∧ (r.2.head?.all fun c => c = 32 || c = 9)) then (env.cmdArgv r.1, r.2)
    else ([37], data)

/-- The string of a name, and the access level. A macro comes before a cvar. -/
def lookup (env : Env) (o : Options) (data term : List QByte) (enclosed : Bool) (accesslevel : Int) :
    Option (List QByte) × Int :=
  let cvar := env.expandCvar data term (if o.expandcvars then o.maxaccesslevel else -999) enclosed
  let accesslevel := if cvar.2 then 0 else accesslevel
  if o.expandmacros then
    let m := env.macroString data term
    (m.1.or cvar.1, if m.2 then 0 else accesslevel)
  else (cvar.1, accesslevel)

/-- `-` before a name: no blanks follow an empty expansion. -/
def stripTrailing (data : List QByte) : ℕ := if data.head? = some 45 then 1 else 0

/-- The rest of the line behind an expansion. -/
def behind (striptrailing : ℕ) (str data : List QByte) : List QByte :=
  if striptrailing = 1 ∧ str = [] then data.dropWhile fun c => c.toInt ≤ 32 else data

/-- The piece of a name that was looked up, and where the line goes on. -/
def namePiece (striptrailing : ℕ) (buf : List QByte) (best : Option (List QByte × ℕ)) (data : List QByte) :
    Piece × List QByte :=
  match best with
  | some (str, nameLength) => (.expansion str (buf.drop nameLength), behind striptrailing str data)
  | none => (.dollar buf, data)

/-- A name in braces, which are part of what is in the buffer. What does not fit is left out. -/
def readBraced (env : Env) (o : Options) (data : List QByte) (quotes : ℕ) (accesslevel : Int) :
    Option (Piece × Reading) :=
  let striptrailing := stripTrailing data
  let rest := data.dropWhile (· ≠ 125)
  let buf := 123 :: (data.takeWhile (· ≠ 125)).take (bufSize - 3)
  let r := lookup env o rest (buf.drop (1 + striptrailing)) true accesslevel
  let closed := rest.head? = some 125
  let buf := if closed then buf ++ [125] else buf
  let p := namePiece striptrailing buf (r.1.map fun str => (str, buf.length)) (if closed then rest.drop 1 else rest)
  if buf.length < bufSize then some (p.1, ⟨p.2, quotes, r.2⟩) else none

/-- A character that ends a name. -/
def endsName (buf : List QByte) (c : QByte) : Bool := c < 32 || c = 36 || (c = 32 && buf.head? ≠ some 123)

/-- What the scan of a name has found: the name, the longest start of it that has a string, with its
length, and the access level. -/
structure Found where
  buf : List QByte
  best : Option (List QByte × ℕ)
  accesslevel : Int

/-- A character of a name is stored, and what there is of the name is looked up. -/
def Found.push (env : Env) (o : Options) (striptrailing : ℕ) (data : List QByte) (c : QByte) (f : Found) : Found :=
  let buf := f.buf ++ [c]
  let r := lookup env o data (buf.drop striptrailing) false f.accesslevel
  ⟨buf, (r.1.map fun str => (str, (buf.drop striptrailing).length)).or f.best, r.2⟩

/-- The scan of a name; `buf[i++] = c; buf[i] = 0` fails outside the buffer. -/
def scanName (env : Env) (o : Options) (striptrailing : ℕ) : List QByte → Found → Option (Found × List QByte)
  | [], f => some (f, [])
  | c :: data, f =>
    if endsName f.buf c then some (f, c :: data)
    else if f.buf.length + 1 < bufSize then scanName env o striptrailing data (f.push env o striptrailing data c)
    else none

/-- A name without braces. -/
def readName (env : Env) (o : Options) (data : List QByte) (quotes : ℕ) (accesslevel : Int) :
    Option (Piece × Reading) :=
  (scanName env o (stripTrailing data) data ⟨[], none, accesslevel⟩).map fun r =>
    let p := namePiece (stripTrailing data) r.1.buf r.1.best r.2
    (p.1, ⟨p.2, quotes, r.1.accesslevel⟩)

/-- What a `$` begins. -/
def readDollar (env : Env) (o : Options) (data : List QByte) (quotes : ℕ) (accesslevel : Int) :
    Option (Piece × Reading) :=
  if data.head? = some 36 then some (.expansion [36] [], ⟨data.drop 1, quotes, accesslevel⟩)
  else if data.head? = some 123 then readBraced env o (data.drop 1) quotes accesslevel
  else readName env o data quotes accesslevel

/-- The piece of a round of the loop. -/
def read (env : Env) (o : Options) (rd : Reading) : Option (Piece × Reading) :=
  match rd.data with
  | [] => none
  | c :: data =>
    let quotes := if c = 34 then rd.quotes + 1 else rd.quotes
    if c = 37 ∧ quotes % 2 = 0 ∧ !env.dpcompatConsole ∧ o.expandargs then
      let r := readPercent env data
      some (.expansion r.1 [], ⟨r.2, quotes, rd.accesslevel⟩)
    else if c = 36 ∧ (quotes % 2 = 0 ∨ env.dpcompatConsole) then readDollar env o data quotes rd.accesslevel
    else some (.char c, ⟨data, quotes, rd.accesslevel⟩)

/-! ## Writing -/

/-- A piece is written at `len`. The results say whether the loop ends, and the new `len`. -/
def Piece.write (destlen : ℕ) (dest : Mem QByte) (len : ℕ) : Piece → Option (Bool × Mem QByte × ℕ)
  | expansion str tail =>
    if len + str.length ≥ destlen - 1 then some (true, dest, len)
    else (dest.puts destlen len (str ++ [0])).bind fun dest =>
      (dest.puts destlen (len + str.length) tail).map fun dest => (false, dest, len + str.length + tail.length)
  | dollar buf => (dest.put destlen len 36).bind fun dest =>
      if len + 1 + buf.length ≥ destlen - 1 then some (true, dest, len + 1)
      else (dest.puts destlen (len + 1) (buf ++ [0])).map fun dest => (false, dest, len + 1 + buf.length)
  | char c => (dest.put destlen len c).map fun dest => (decide (len + 1 ≥ destlen - 1), dest, len + 1)

/-- The loop, in at most `n` rounds. -/
def expandLoop (env : Env) (o : Options) (destlen : ℕ) : (n : ℕ) → Reading → Mem QByte → ℕ →
    Option (Mem QByte × ℕ × Int)
  | 0, _, _, _ => none
  | n + 1, rd, dest, len =>
    if rd.data = [] then some (dest, len, rd.accesslevel)
    else (read env o rd).bind fun r => (r.1.write destlen dest len).bind fun w =>
      if w.1 then some (w.2.1, w.2.2, r.2.accesslevel) else expandLoop env o destlen n r.2 w.2.1 w.2.2

/-- The end of the string, and of a line that was one of DOS. -/
def finish (destlen : ℕ) (r : Mem QByte × ℕ × Int) : Option (Mem QByte × Int) :=
  (r.1.put destlen r.2.1 0).bind fun dest =>
    if r.2.1 ≠ 0 ∧ dest (r.2.1 - 1) = 13 then (dest.put destlen (r.2.1 - 1) 0).map fun dest => (dest, r.2.2)
    else some (dest, r.2.2)

/-- `Cmd_ExpandString`: `dest` and the access level. -/
def cmdExpandString (env : Env) (expandargs expandcvars expandmacros : Bool) (data : List QByte) (dest : Mem QByte)
    (destlen : ℕ) (accesslevel : Int) : Option (Mem QByte × Int) :=
  (expandLoop env ⟨accesslevel, expandargs, expandcvars, expandmacros⟩ destlen (data.length + 1)
    ⟨data, 0, accesslevel⟩ dest 0).bind (finish destlen)

/-! ## Every round reads -/

section Reading

variable {env : Env} {o : Options} {rd rd' : Reading} {p : Piece} {data : List QByte}

theorem length_dropWhile_le (f : QByte → Bool) (s : List QByte) : (s.dropWhile f).length ≤ s.length :=
  (List.dropWhile_suffix f).length_le

theorem length_strtolText_le (s : List QByte) : (strtolText s).length ≤ s.length := by
  refine le_trans ?_ (length_dropWhile_le isSpace s)
  rw [strtolText]
  split
  · rw [List.length_drop]
    exact sub_le _ _
  · exact le_rfl

theorem length_strtol_le (s : List QByte) : (strtol s).2.length ≤ s.length := by
  rw [strtol]
  by_cases hdigits : (strtolText s).takeWhile isDigit = []
  · rw [if_pos hdigits]
  · rw [if_neg hdigits]
    exact (length_dropWhile_le isDigit _).trans (length_strtolText_le s)

theorem length_readPercent_le (env : Env) (data : List QByte) : (readPercent env data).2.length ≤ data.length := by
  have hdrop : (data.drop 1).length ≤ data.length := by
    rw [List.length_drop]
    omega
  rw [readPercent]
  split_ifs
  · exact hdrop
  · exact hdrop
  · exact hdrop
  · dsimp only
    split
    · exact length_strtol_le data
    · exact le_rfl

theorem length_namePiece_le (striptrailing : ℕ) (buf : List QByte) (best : Option (List QByte × ℕ)) (data : List QByte) :
    (namePiece striptrailing buf best data).2.length ≤ data.length := by
  cases best with
  | none => exact le_rfl
  | some b =>
    change (behind striptrailing b.1 data).length ≤ data.length
    rw [behind]
    split
    · exact length_dropWhile_le _ _
    · exact le_rfl

theorem length_readBraced_le {quotes : ℕ} {accesslevel : Int}
    (h : readBraced env o data quotes accesslevel = some (p, rd)) : rd.data.length ≤ data.length := by
  obtain ⟨-, hr⟩ := ite_none_right_eq_some.mp h
  obtain ⟨-, rfl⟩ := Prod.mk.inj (some.inj hr)
  refine (length_namePiece_le _ _ _ _).trans ?_
  split
  · rw [List.length_drop]
    exact (sub_le _ _).trans (length_dropWhile_le _ _)
  · exact length_dropWhile_le _ _

/-- A name in braces always fits in the buffer. -/
theorem readBraced_isSome (env : Env) (o : Options) (data : List QByte) (quotes : ℕ) (accesslevel : Int) :
    (readBraced env o data quotes accesslevel).isSome := by
  have htake : ((data.takeWhile (· ≠ 125)).take (bufSize - 3)).length ≤ 252 := List.length_take_le _ _
  rw [readBraced, if_pos]
  · rfl
  · split
    · rw [List.length_append, List.length_cons]
      exact Nat.lt_of_le_of_lt (Nat.add_le_add_right (Nat.add_le_add_right htake 1) 1) (by decide)
    · rw [List.length_cons]
      exact Nat.lt_of_le_of_lt (Nat.add_le_add_right htake 1) (by decide)

theorem length_scanName_le {striptrailing : ℕ} {f : Found} {r : Found × List QByte}
    (h : scanName env o striptrailing data f = some r) : r.2.length ≤ data.length := by
  induction data generalizing f with
  | nil =>
    cases h
    exact le_rfl
  | cons c data ih =>
    rw [scanName] at h
    split_ifs at h with hends hroom
    · cases h
      exact le_rfl
    · exact (ih h).trans (le_succ _)

/-- A character that does not end a name without braces. -/
def isNameChar (c : QByte) : Bool := !(c < 32 || c = 36 || c = 32)

/-- A name is read exactly where the buffer holds it. -/
theorem scanName_isSome_iff (striptrailing : ℕ) {f : Found} (hbrace : (f.buf ++ data).head? ≠ some 123)
    (hbuf : f.buf.length < bufSize) :
    (scanName env o striptrailing data f).isSome ↔ f.buf.length + (data.takeWhile isNameChar).length < bufSize := by
  induction data generalizing f with
  | nil => exact iff_of_true rfl hbuf
  | cons c data ih =>
    have hhead : f.buf.head? ≠ some 123 := by
      intro hhead
      rw [List.head?_append, hhead] at hbrace
      exact hbrace rfl
    have hends : endsName f.buf c = !isNameChar c := by
      rw [endsName, isNameChar, decide_eq_true hhead, Bool.and_true, Bool.not_not]
    rw [scanName, hends, List.takeWhile_cons]
    cases isNameChar c with
    | false => exact iff_of_true rfl hbuf
    | true =>
      rw [if_neg (by decide), if_pos rfl, List.length_cons]
      have hlength : (f.push env o striptrailing data c).buf.length = f.buf.length + 1 := List.length_append
      split
      · rename_i hroom
        rw [ih, hlength]
        · exact iff_of_eq (congrArg (· < bufSize) (by omega))
        · change (f.buf ++ [c] ++ data).head? ≠ some 123
          rwa [List.append_assoc]
        · rwa [hlength]
      · exact iff_of_false nofun (by omega)

/-- How long the name is that a round reads without braces. -/
def nameRun (env : Env) (rd : Reading) : ℕ :=
  match rd.data with
  | [] => 0
  | c :: data =>
    if c = 36 ∧ (rd.quotes % 2 = 0 ∨ env.dpcompatConsole) ∧ data.head? ≠ some 36 ∧ data.head? ≠ some 123 then
      (data.takeWhile isNameChar).length
    else 0

theorem length_readDollar_le {quotes : ℕ} {accesslevel : Int}
    (h : readDollar env o data quotes accesslevel = some (p, rd)) : rd.data.length ≤ data.length := by
  rw [readDollar] at h
  split_ifs at h
  · cases h
    rw [List.length_drop]
    exact sub_le _ _
  · refine (length_readBraced_le h).trans ?_
    rw [List.length_drop]
    exact sub_le _ _
  · obtain ⟨r, hr, hp⟩ := map_eq_some_iff.mp h
    cases hp
    exact (length_namePiece_le _ _ _ _).trans (length_scanName_le hr)

/-- Every round takes something of the line. -/
theorem length_read_lt (h : read env o rd = some (p, rd')) : rd'.data.length < rd.data.length := by
  rw [read] at h
  split at h
  · cases h
  · rename_i c data hdata
    rw [hdata, List.length_cons, Nat.lt_succ_iff]
    dsimp only at h
    split_ifs at h
    all_goals first
      | exact length_readDollar_le h
      | cases h
    all_goals first
      | exact length_readPercent_le env data
      | exact le_rfl

theorem read_dollar (o : Options) (hdata : rd.data = 36 :: data)
    (hquotes : rd.quotes % 2 = 0 ∨ env.dpcompatConsole = true) :
    read env o rd = readDollar env o data rd.quotes rd.accesslevel := by
  have hpercent : ¬((36 : QByte) = 37 ∧ rd.quotes % 2 = 0 ∧ (!env.dpcompatConsole) = true ∧ o.expandargs = true) :=
    fun h => absurd h.1 (by decide)
  rw [read, hdata]
  dsimp only
  rw [if_neg (by decide : ¬(36 : QByte) = 34), if_neg hpercent, if_pos ⟨rfl, hquotes⟩]

theorem read_other (o : Options) {c : QByte} (hdata : rd.data = c :: data)
    (h : ¬(c = 36 ∧ (rd.quotes % 2 = 0 ∨ env.dpcompatConsole = true))) : (read env o rd).isSome := by
  have hdollar : ¬(c = 36 ∧ ((if c = 34 then rd.quotes + 1 else rd.quotes) % 2 = 0 ∨ env.dpcompatConsole = true)) := by
    rintro ⟨rfl, hquotes⟩
    exact h ⟨rfl, hquotes⟩
  rw [read, hdata]
  dsimp only
  rw [if_neg hdollar]
  split_ifs <;> rfl

/-- A round reads a piece exactly where the buffer holds the name. -/
theorem read_isSome_iff (env : Env) (o : Options) {rd : Reading} (hdata : rd.data ≠ []) :
    (read env o rd).isSome ↔ nameRun env rd < bufSize := by
  obtain ⟨c, data, hcons⟩ := List.exists_cons_of_ne_nil hdata
  have hzero : 0 < bufSize := by decide
  have hrun : nameRun env rd = if c = 36 ∧ (rd.quotes % 2 = 0 ∨ env.dpcompatConsole = true) ∧
      data.head? ≠ some 36 ∧ data.head? ≠ some 123 then (data.takeWhile isNameChar).length else 0 := by
    rw [nameRun, hcons]
  by_cases hdollar : c = 36 ∧ (rd.quotes % 2 = 0 ∨ env.dpcompatConsole = true)
  · obtain ⟨rfl, hquotes⟩ := hdollar
    rw [read_dollar o hcons hquotes, hrun, readDollar]
    by_cases hdouble : data.head? = some 36
    · rw [if_pos hdouble, if_neg fun h => h.2.2.1 hdouble]
      exact iff_of_true rfl hzero
    by_cases hbrace : data.head? = some 123
    · rw [if_neg hdouble, if_pos hbrace, if_neg fun h => h.2.2.2 hbrace]
      exact iff_of_true (readBraced_isSome env o _ _ _) hzero
    · rw [if_neg hdouble, if_neg hbrace, if_pos ⟨rfl, hquotes, hdouble, hbrace⟩, readName, isSome_map]
      have hscan : (scanName env o (stripTrailing data) data ⟨[], none, rd.accesslevel⟩).isSome ↔ _ :=
        scanName_isSome_iff (stripTrailing data) hbrace hzero
      rwa [List.length_nil, zero_add] at hscan
  · rw [hrun, if_neg fun h => hdollar ⟨h.1, h.2.1⟩]
    exact iff_of_true (read_other o hcons hdollar) hzero

end Reading

/-! ## What fits -/

namespace Piece

/-- The test of the loop that the piece leaves room: it goes on. -/
def Passes (destlen len : ℕ) : Piece → Prop
  | expansion str _ => len + str.length < destlen - 1
  | dollar buf => len + 1 + buf.length < destlen - 1
  | char _ => len + 1 < destlen - 1

def size : Piece → ℕ
  | expansion str tail => str.length + tail.length
  | dollar buf => 1 + buf.length
  | char _ => 1

/-- What the piece stores untested is inside `dest`, and the end of the string behind it too. -/
def Inside (destlen len : ℕ) : Piece → Prop
  | expansion str tail => len + str.length < destlen - 1 → len + str.length + tail.length < destlen
  | dollar _ => len + 1 < destlen
  | char _ => len + 1 < destlen

end Piece

section Writing

variable {destlen len : ℕ} {dest : Mem QByte}

/-- A piece that is inside is written, and the loop goes on where it passes. -/
theorem write_inside (dest : Mem QByte) (hlen : len < destlen) {p : Piece} (h : p.Inside destlen len) :
    (p.Passes destlen len ∧ len + p.size < destlen ∧
        ∃ dest', p.write destlen dest len = some (false, dest', len + p.size)) ∨
      (¬p.Passes destlen len ∧ ∃ dest' len', p.write destlen dest len = some (true, dest', len') ∧ len' < destlen) := by
  cases p with
  | expansion str tail =>
    by_cases hpass : len + str.length < destlen - 1
    · have hsum : len + str.length + tail.length < destlen := h hpass
      have hsize : len + (Piece.expansion str tail).size = len + str.length + tail.length := (add_assoc _ _ _).symm
      have hstr : len + (str ++ [0]).length ≤ destlen := by
        rw [List.length_append, List.length_singleton]
        omega
      refine .inl ⟨hpass, hsize ▸ hsum, (dest.blit len (str ++ [0])).blit (len + str.length) tail, ?_⟩
      rw [Piece.write, if_neg (not_le.mpr hpass), puts_of_le hstr, bind_some, puts_of_le hsum.le, map_some, hsize]
    · exact .inr ⟨hpass, dest, len, if_pos (not_lt.mp hpass), hlen⟩
  | dollar buf =>
    have hput := put_of_lt hlen dest 36
    by_cases hpass : len + 1 + buf.length < destlen - 1
    · have hsize : len + (Piece.dollar buf).size = len + 1 + buf.length := (add_assoc _ _ _).symm
      have hbuf : len + 1 + (buf ++ [0]).length ≤ destlen := by
        rw [List.length_append, List.length_singleton]
        omega
      refine .inl ⟨hpass, by omega, (dest.blit len [36]).blit (len + 1) (buf ++ [0]), ?_⟩
      rw [Piece.write, hput, bind_some, if_neg (not_le.mpr hpass), puts_of_le hbuf, map_some, hsize]
    · refine .inr ⟨hpass, dest.blit len [36], len + 1, ?_, h⟩
      rw [Piece.write, hput, bind_some, if_pos (not_lt.mp hpass)]
  | char c =>
    have hput := put_of_lt hlen dest c
    by_cases hpass : len + 1 < destlen - 1
    · refine .inl ⟨hpass, h, dest.blit len [c], ?_⟩
      rw [Piece.write, hput, map_some, decide_eq_false (not_le.mpr hpass)]
      rfl
    · refine .inr ⟨hpass, dest.blit len [c], len + 1, ?_, h⟩
      rw [Piece.write, hput, map_some, decide_eq_true (not_lt.mp hpass)]

/-- A piece that is not inside fails, or leaves the end of the string outside. -/
theorem write_outside (hlen : len < destlen) {p : Piece} (h : ¬p.Inside destlen len) (w : Bool × Mem QByte × ℕ)
    (hw : p.write destlen dest len = some w) : destlen ≤ w.2.2 := by
  cases p with
  | expansion str tail =>
    obtain ⟨hpass, hsum⟩ := Classical.not_imp.mp h
    rw [Piece.write, if_neg (not_le.mpr hpass)] at hw
    obtain ⟨m, -, hm⟩ := bind_eq_some_iff.mp hw
    obtain ⟨m', -, rfl⟩ := map_eq_some_iff.mp hm
    exact not_lt.mp hsum
  | dollar buf =>
    have hend : destlen ≤ len + 1 := not_lt.mp h
    rw [Piece.write, put_of_lt hlen, bind_some, if_pos (by omega)] at hw
    cases hw
    exact hend
  | char c =>
    rw [Piece.write, put_of_lt hlen] at hw
    cases hw
    exact not_lt.mp h

theorem finish_of_le {r : Mem QByte × ℕ × Int} (h : destlen ≤ r.2.1) : finish destlen r = none := by
  rw [finish, put_of_le h, bind_none]

/-- Inside, the string gets its end. -/
theorem finish_of_lt {r : Mem QByte × ℕ × Int} (h : r.2.1 < destlen) :
    ∃ t, finish destlen r = some t ∧ ∃ i < destlen, t.1 i = 0 := by
  rw [finish, put, if_pos h, bind_some]
  split
  · rename_i hcr
    have hlt : r.2.1 - 1 < destlen := by omega
    rw [put, if_pos hlt]
    exact ⟨_, rfl, r.2.1 - 1, hlt, if_pos rfl⟩
  · exact ⟨_, rfl, r.2.1, h, if_pos rfl⟩

/-- Outside, everything fails in the end. -/
theorem expandLoop_outside (env : Env) (o : Options) (h : destlen ≤ len) (n : ℕ) (rd : Reading) :
    (expandLoop env o destlen n rd dest len).bind (finish destlen) = none := by
  have hstop (b : Int) : finish destlen (dest, len, b) = none := finish_of_le h
  cases n with
  | zero => rfl
  | succ n =>
    rw [expandLoop]
    split
    · exact hstop _
    cases hread : read env o rd with
    | none => rfl
    | some r =>
      rw [bind_some]
      cases r.1 with
      | expansion str tail =>
        rw [Piece.write, if_pos (by omega)]
        exact hstop _
      | dollar buf => rw [Piece.write, put_of_le h, bind_none, bind_none, bind_none]
      | char c => rw [Piece.write, put_of_le h, map_none, bind_none, bind_none]

end Writing

/-! ## The loop -/

section Loop

variable (env : Env) (o : Options) {destlen : ℕ}

/-- The loop goes from a place in the line, and in `dest`, to the next. -/
def Step (destlen : ℕ) (a b : Reading × ℕ) : Prop :=
  ∃ p : Piece, read env o a.1 = some (p, b.1) ∧ p.Passes destlen a.2 ∧ b.2 = a.2 + p.size

/-- What the loop stores for the piece at a place, fits. -/
def Fits (destlen : ℕ) (a : Reading × ℕ) : Prop :=
  a.1.data ≠ [] → nameRun env a.1 < bufSize ∧
    ∀ p rd', read env o a.1 = some (p, rd') → p.Inside destlen a.2

/-- Every place that the loop comes to, fits. -/
def AllFit (destlen : ℕ) (a : Reading × ℕ) : Prop :=
  ∀ b, Relation.ReflTransGen (Step env o destlen) a b → Fits env o destlen b

variable {env o} {a b : Reading × ℕ}

theorem AllFit.step (h : AllFit env o destlen a) (hstep : Step env o destlen a b) : AllFit env o destlen b :=
  fun c hc => h c (.head hstep hc)

theorem allFit_of_step (h : Fits env o destlen a) (hstep : ∀ b, Step env o destlen a b → AllFit env o destlen b) :
    AllFit env o destlen a := by
  intro c hc
  rcases hc.cases_head with rfl | ⟨b, hb, hrest⟩
  · exact h
  · exact hstep b hb c hrest

/-- The loop, with the end of the string, fails nowhere exactly where all fits. -/
theorem expandLoop_iff {n len : ℕ} {rd : Reading} (dest : Mem QByte) (hn : rd.data.length < n) (hlen : len < destlen) :
    (∃ t, (expandLoop env o destlen n rd dest len).bind (finish destlen) = some t ∧ ∃ i < destlen, t.1 i = 0) ↔
      AllFit env o destlen (rd, len) := by
  induction n generalizing rd dest len with
  | zero => exact absurd hn (not_lt_zero _)
  | succ n ih =>
    rw [expandLoop]
    by_cases hdata : rd.data = []
    · rw [if_pos hdata, bind_some]
      refine iff_of_true (finish_of_lt hlen) (allFit_of_step (fun hne => absurd hdata hne) ?_)
      rintro b ⟨p, hread, -⟩
      exact absurd (length_read_lt hread) (by rw [hdata]; exact not_lt_zero _)
    rw [if_neg hdata]
    cases hread : read env o rd with
    | none =>
      refine iff_of_false (fun ⟨_, h, _⟩ => nomatch h) fun h => ?_
      have hsome := (read_isSome_iff env o hdata).mpr (h _ .refl hdata).1
      rw [hread] at hsome
      cases hsome
    | some r =>
      have hrun : nameRun env rd < bufSize := (read_isSome_iff env o hdata).mp (by rw [hread]; rfl)
      have hlt := length_read_lt hread
      rw [bind_some]
      by_cases hinside : r.1.Inside destlen len
      · have hfits : Fits env o destlen (rd, len) := by
          refine fun _ => ⟨hrun, fun p rd' hp => ?_⟩
          obtain rfl := some.inj (hread.symm.trans hp)
          exact hinside
        rcases write_inside dest hlen hinside with ⟨hpass, hsize, dest', hwrite⟩ | ⟨hpass, dest', len', hwrite, hlen'⟩
        · rw [hwrite, bind_some, if_neg Bool.false_ne_true, ih dest' (by omega) hsize]
          constructor
          · intro h
            refine allFit_of_step hfits ?_
            rintro ⟨rd', len'⟩ ⟨p, hp, -, rfl⟩
            obtain rfl := some.inj (hread.symm.trans hp)
            exact h
          · exact fun h => h.step ⟨r.1, hread, hpass, rfl⟩
        · rw [hwrite, bind_some, if_pos rfl, bind_some]
          refine iff_of_true (finish_of_lt hlen') (allFit_of_step hfits ?_)
          rintro b ⟨p, hp, hpass', -⟩
          obtain rfl := some.inj (hread.symm.trans hp)
          exact absurd hpass' hpass
      · refine iff_of_false ?_ fun h => hinside ((h _ .refl hdata).2 _ _ hread)
        rintro ⟨t, ht, -⟩
        cases hwrite : r.1.write destlen dest len with
        | none =>
          rw [hwrite] at ht
          cases ht
        | some w =>
          have hout := write_outside hlen hinside w hwrite
          rw [hwrite, bind_some] at ht
          cases hstop : w.1 with
          | true =>
            rw [if_pos hstop, bind_some, finish_of_le hout] at ht
            cases ht
          | false =>
            rw [if_neg (by rw [hstop]; exact Bool.false_ne_true), expandLoop_outside env o hout] at ht
            cases ht

end Loop

/-- **`Cmd_ExpandString` stays in its buffers, and ends the string in `dest`, exactly where at every piece of
the line that it comes to, the buffer for names holds the name, and `dest` what is stored untested: a
character, a `$` without an expansion, or the rest of a name behind one.** -/
theorem expand_inside_iff (env : Env) (expandargs expandcvars expandmacros : Bool) (data : List QByte)
    (dest : Mem QByte) {destlen : ℕ} (hdestlen : 1 ≤ destlen) (accesslevel : Int) :
    (∃ t, cmdExpandString env expandargs expandcvars expandmacros data dest destlen accesslevel = some t ∧
        ∃ i < destlen, t.1 i = 0) ↔
      AllFit env ⟨accesslevel, expandargs, expandcvars, expandmacros⟩ destlen (⟨data, 0, accesslevel⟩, 0) :=
  expandLoop_iff dest (Nat.lt_succ_self _) hdestlen

/-- One cvar, `a`, with the value `xyz`. -/
def oneCvar : Env where
  dpcompatConsole := false
  cmdArgs := []
  cmdArgv _ := []
  expandCvar _ term _ _ := (if term = [97] then some [120, 121, 122] else none, false)
  macroString _ _ := (none, false)

/-- `$a` and a character fit in 8 characters. -/
theorem expand_inside_cvar : AllFit oneCvar ⟨0, false, true, true⟩ 8 (⟨[36, 97, 32], 0, 0⟩, 0) :=
  (expand_inside_iff oneCvar false true true [36, 97, 32] (fun _ => 1) (show 1 ≤ 8 by decide) 0).mp
    ⟨_, rfl, 4, by decide, rfl⟩

/-- A name of 255 characters; the rest `bbbbbb` of a name behind `$a`, where `dest` has 8 characters; a character,
where it has one. -/
theorem expand_outside :
    cmdExpandString oneCvar false true true (36 :: List.replicate 255 98) (fun _ => 0) 1024 0 = none ∧
    cmdExpandString oneCvar false true true [36, 97, 98, 98, 98, 98, 98, 98] (fun _ => 0) 8 0 = none ∧
    cmdExpandString oneCvar false true true [98] (fun _ => 0) 1 0 = none := by
  refine ⟨?_, ?_, ?_⟩ <;> exact Option.isNone_iff_eq_none.mp (by decide +kernel)

end CmdExpand

end FteQuake
