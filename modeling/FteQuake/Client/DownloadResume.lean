import FteQuake.Client.Download
import Mathlib.Data.List.TakeWhile
import Mathlib.Data.Nat.Digits.Lemmas
import Mathlib.Tactic.IntervalCases

/-!
# Resuming a download

`DL_Abort` saves the block list of a chunked download beside the partial file, and `DL_Begun` reads it when the
same file is begun again. The list is written with hexadecimal numbers and read by `strtoull` with base 0, so
only the lists of files of less than ten bytes are accepted; the file is opened for continuing with mode
`w+b`, which keeps its contents on Windows and loses them elsewhere.

`resumesCorrectly_iff` says when what is accepted is what was received.
-/

namespace FteQuake

open Tiling List Nat

namespace Download

/-! ## The text of a list -/

/-- A newline. -/
def newline : QByte := 0x0a

/-- A blank. -/
def blank : QByte := 0x20

/-- A double quote. -/
def quote : QByte := 0x22

/-- A slash. -/
def slash : QByte := 0x2f

/-- A star. -/
def star : QByte := 0x2a

/-- The letter of a received block. -/
def kindReceived : QByte := 0x63

/-- The letter of any other block. -/
def kindMissing : QByte := 0x6d

/-- A digit of `%x`. -/
def hexDigit (d : ℕ) : QByte := if d < 10 then BitVec.ofNat 8 (48 + d) else BitVec.ofNat 8 (87 + d)

/-- A number printed with `%PRIx64`. -/
def hexText (n : ℕ) : List QByte :=
  if n = 0 then [hexDigit 0] else (Nat.digits 16 n).reverse.map hexDigit

/-- A block merges with the blocks behind it that are not received either. -/
def mergeMissing (b : DlBlock) : List DlBlock → DlBlock × List DlBlock
  | [] => (b, [])
  | n :: rest =>
    if n.state ≠ .received then mergeMissing { b with stop := n.stop } rest else (b, n :: rest)

theorem mergeMissing_length (b : DlBlock) (rest : List DlBlock) :
    (mergeMissing b rest).2.length ≤ rest.length := by
  induction rest generalizing b with
  | nil => exact le_refl _
  | cons n rest ih =>
    rw [mergeMissing]
    split_ifs
    · exact (ih _).trans (le_succ _)
    · exact le_refl _

/-- The blocks that `DL_Abort` saves. -/
def savedBlocks : List DlBlock → List DlBlock
  | [] => []
  | b :: rest =>
    if b.state = .received then b :: savedBlocks rest
    else
      let next := mergeMissing b rest
      next.1 :: savedBlocks next.2
  termination_by blocks => blocks.length
  decreasing_by
    · exact Nat.lt_succ_self _
    · exact Nat.lt_succ_of_le (mergeMissing_length b rest)

/-- The letter of a block. -/
def DlBlock.kind (b : DlBlock) : QByte := if b.state = .received then kindReceived else kindMissing

/-- The line of a block, without its newline. -/
def DlBlock.line (b : DlBlock) : List QByte :=
  [b.kind, blank] ++ hexText b.start ++ [blank] ++ hexText b.stop

/-- The list of valid chunks that `DL_Abort` writes. -/
def saveText (blocks : List DlBlock) : List QByte :=
  (savedBlocks blocks).flatMap fun b => b.line ++ [newline]

/-- The bytes of a file by offset, as far as they have been written. -/
abbrev Contents : Type := ℕ → Option QByte

/-- The two files of a download: the list of its blocks, and what it has got so far. -/
structure Disk where
  dcl : Option (List QByte)
  temp : Option Contents

/-- `DL_Abort`, when the download is not completed. -/
def dlAbort (disk : Disk) (dl : QDownload) : Disk :=
  if dl.dlblocks = [] then { disk with temp := none }
  else ⟨some (saveText dl.dlblocks), some dl.file⟩

/-! ## Reading it -/

/-- The lines that `VFS_GETS` reads with a buffer for 255 bytes, of which `room` are left; `line` is
what it has read of the line, backwards. -/
def getLines : (room : ℕ) → (line : List QByte) → List QByte → List (List QByte)
  | _, [], [] => []
  | _, line, [] => [line.reverse]
  | room, line, c :: text =>
    if c = newline then
      -- a trailing `\r` is stripped
      (if line.head? = some 0x0d then line.tail else line).reverse :: getLines 255 [] text
    else if room ≤ 1 then
      (if c = 0x0d then line else c :: line).reverse :: getLines 255 [] text
    else getLines (room - 1) (c :: line) text

/-- What the search for a token is in. -/
inductive Skip
  | white
  | lineComment
  | blockOpen
  | blockComment

/-- The white space and comments before a token of `COM_ParseType`; none at the end of the text. -/
def skipWhite : Skip → List QByte → Option (List QByte)
  | _, [] => none
  | .white, c :: text =>
    -- the bytes are signed
    if c.toInt ≤ 32 then skipWhite .white text
    else if c = slash ∧ text.head? = some slash then skipWhite .lineComment text
    else if c = slash ∧ text.head? = some star then skipWhite .blockOpen text
    else some (c :: text)
  | .lineComment, c :: text =>
    if c = newline then skipWhite .white text else skipWhite .lineComment text
  | .blockOpen, _ :: text => skipWhite .blockComment text
  | .blockComment, c :: d :: text =>
    if c = star ∧ d = slash then skipWhite .white text else skipWhite .blockComment (d :: text)
  | .blockComment, [_] => none

/-- A quoted string with `room` bytes left for it. Without an end quote it is read on behind the
terminating null. -/
def parseString (stale : List QByte) : (room : ℕ) → List QByte → List QByte × List QByte
  | 0, text => ([], text)
  | _ + 1, [] => ([], stale)
  | room + 1, c :: text =>
    if c = quote then ([], text)
    else
      let r := parseString stale room text
      (c :: r.1, r.2)

/-- `COM_ParseOut` with a buffer of 128 bytes: the token, and the text behind it. -/
def parseOut (stale : List QByte) (data : Option (List QByte)) :
    List QByte × Option (List QByte) :=
  match data.bind (skipWhite .white) with
  | none => ([], none)
  | some [] => ([], none)
  | some (c :: text) =>
    if c = quote then
      let r := parseString stale 127 text
      (r.1, some r.2)
    else
      let token := ((c :: text).takeWhile fun c => 32 < c.toInt).take 127
      (token, some ((c :: text).drop token.length))

/-- The value of a digit or letter. -/
def digitValue (c : QByte) : Option ℕ :=
  if 48 ≤ c.toNat ∧ c.toNat ≤ 57 then some (c.toNat - 48)
  else if 97 ≤ c.toNat ∧ c.toNat ≤ 122 then some (c.toNat - 87)
  else if 65 ≤ c.toNat ∧ c.toNat ≤ 90 then some (c.toNat - 55)
  else none

/-- The digits of a base at the front of a text. -/
def readDigits (base : ℕ) : (value : ℕ) → List QByte → ℕ
  | value, [] => value
  | value, c :: text =>
    match digitValue c with
    | none => value
    | some d => if d < base then readDigits base (value * base + d) text else value

/-- White space of `isspace`. -/
def isSpace (c : QByte) : Bool := c = blank ∨ 9 ≤ c.toNat ∧ c.toNat ≤ 13

/-- The base that `strtoull` finds for base 0, and the digits. -/
def findBase : List QByte → ℕ × List QByte
  | z :: x :: d :: text =>
    if z = 0x30 ∧ (x = 0x78 ∨ x = 0x58) ∧ ((digitValue d).any fun v => v < 16) then
      (16, d :: text)
    else if z = 0x30 then (8, z :: x :: d :: text)
    else (10, z :: x :: d :: text)
  | z :: text => if z = 0x30 then (8, z :: text) else (10, z :: text)
  | [] => (10, [])

/-- `strtoull(text, NULL, 0)`. -/
def strtoull (text : List QByte) : ℕ :=
  let text := text.dropWhile isSpace
  let negative := text.head? = some 0x2d
  let text := if negative ∨ text.head? = some 0x2b then text.tail else text
  let based := findBase text
  let value := readDigits based.1 0 based.2
  if 2 ^ 64 ≤ value then 2 ^ 64 - 1 else if negative then (2 ^ 64 - value) % 2 ^ 64 else value

/-- A line of the list: its letter (the null of an empty token), its start and its end. -/
structure Entry where
  kind : QByte
  start : ℕ
  stop : ℕ
  deriving DecidableEq

/-- The parsing of a line. Behind its terminating null the buffer holds `stale`. -/
def parseEntry (stale line : List QByte) : Entry :=
  let t := parseOut stale (some (line.takeWhile (· ≠ 0)))
  let s := parseOut stale t.2
  let e := parseOut stale s.2
  ⟨t.1.headD 0, strtoull s.1, strtoull e.1⟩

/-- What `DL_Begun` reads from the list. -/
structure Loaded where
  dlblocks : List DlBlock
  completedbytes : ℕ
  lastend : ℕ
  error : Bool

/-- The block of a line. -/
def Entry.block (e : Entry) : DlBlock :=
  ⟨e.start, e.stop, if e.kind = kindReceived then .received else .missing, 0#32⟩

/-- The loop of `DL_Begun` over the lines, from line `i` on. -/
def loadBlocks (stale : ℕ → List QByte) :
    (i completedbytes lastend : ℕ) → List (List QByte) → Loaded
  | _, completedbytes, lastend, [] => ⟨[], completedbytes, lastend, false⟩
  | i, completedbytes, lastend, line :: lines =>
    let e := parseEntry (stale i) line
    let completedbytes :=
      if e.kind = kindReceived then (completedbytes + e.block.length) % 2 ^ 64
      else completedbytes
    if e.start ≠ lastend then ⟨[e.block], completedbytes, e.stop, true⟩
    else
      let r := loadBlocks stale (i + 1) completedbytes e.stop lines
      { r with dlblocks := e.block :: r.dlblocks }

/-- The systems whose files are opened in different ways. -/
inductive Platform
  | windows
  | posix
  deriving DecidableEq

/-- `FS_OpenVFS` with mode `w+b`: `VFSW32_Open` opens what there is, and `VFSSTDIO_Open` drops the `+`
and truncates. -/
def openContinue : Platform → Option Contents → Contents
  | .windows, some file => file
  | _, _ => fun _ => none

/-- `DL_Begun` for a chunked download of `size` bytes. -/
def dlBegun (platform : Platform) (stale : ℕ → List QByte) (disk : Disk) (size : ℕ) : QDownload :=
  let loaded : Loaded :=
    match disk.dcl with
    | none => ⟨[], 0, 0, true⟩
    | some text => loadBlocks stale 0 0 0 (getLines 255 [] text)
  let single : DlBlock := ⟨0, size, .missing, 0#32⟩
  if loaded.error ∨ loaded.lastend ≠ size then ⟨size, [single], 0, fun _ => none⟩
  else
    ⟨size, if loaded.dlblocks = [] then [single] else loaded.dlblocks, loaded.completedbytes,
      openContinue platform disk.temp⟩

/-! ## Numbers -/

variable {b : DlBlock} {blocks : List DlBlock} {text : List QByte} {a d n size z : ℕ}
  {stale : ℕ → List QByte}

theorem digitValue_hexDigit (h : d < 16) : digitValue (hexDigit d) = some d := by
  interval_cases d <;> rfl

/-- The number of some digits, read from the front. -/
def number (base value : ℕ) (ds : List ℕ) : ℕ := ds.foldl (fun v d => v * base + d) value

theorem number_digits (n : ℕ) : number 16 0 (Nat.digits 16 n).reverse = n := by
  rw [number, foldl_reverse]
  conv_rhs => rw [← ofDigits_digits 16 n, ofDigits_eq_foldr]
  congr 1
  funext d v
  rw [cast_id, mul_comm, add_comm]

theorem le_number (value : ℕ) (ds : List ℕ) : value ≤ number 16 value ds := by
  induction ds generalizing value with
  | nil => exact le_refl _
  | cons d ds ih =>
    refine le_trans ?_ (ih (value * 16 + d))
    omega

/-- Digits of base 16 that are read in base 10 give less, when what has been read is less already. -/
theorem readDigits_lt_number {v w : ℕ} (hvw : v < w) {ds : List ℕ} (hds : ∀ d ∈ ds, d < 16) :
    readDigits 10 v (ds.map hexDigit) < number 16 w ds := by
  induction ds generalizing v w with
  | nil => exact hvw
  | cons d ds ih =>
    rw [map_cons, readDigits, digitValue_hexDigit (hds d mem_cons_self)]
    simp only
    rw [number, foldl_cons, ← number]
    split_ifs with hd
    · exact ih (by omega) fun e he => hds e (.tail d he)
    · exact (show v < w * 16 + d by omega).trans_le (le_number _ ds)

theorem hexText_of_ne_zero (h : n ≠ 0) :
    hexText n = ((Nat.digits 16 n).reverse).map hexDigit := if_neg h

/-- The digits of a number that is not zero begin with one that is not zero. -/
theorem digits_reverse (h : n ≠ 0) : ∃ d ds, (Nat.digits 16 n).reverse = d :: ds ∧ 0 < d ∧
    d < 16 ∧ ∀ e ∈ ds, e < 16 := by
  have hlt : ∀ e ∈ Nat.digits 16 n, e < 16 := fun e he => digits_lt_base (by omega) he
  have hne : Nat.digits 16 n ≠ [] := digits_ne_nil_iff_ne_zero.2 h
  have hlast := getLast_digit_ne_zero 16 h
  cases hrev : (Nat.digits 16 n).reverse with
  | nil => exact absurd (reverse_eq_nil_iff.1 hrev) hne
  | cons d ds =>
    have hmem : ∀ e ∈ d :: ds, e < 16 := fun e he => hlt e (mem_reverse.1 (hrev ▸ he))
    have hd : d = (Nat.digits 16 n).getLast hne := by
      rw [← head_reverse (by simpa using hne)]
      simp [hrev]
    exact ⟨d, ds, rfl, pos_of_ne_zero (hd ▸ hlast), hmem d (.head _), fun e he => hmem e (.tail d he)⟩

theorem hexDigit_toNat (h : d < 16) :
    (hexDigit d).toNat = if d < 10 then 48 + d else 87 + d := by
  interval_cases d <;> rfl

/-- Without a sign, white space or leading zero the digits are read in base 10. -/
theorem strtoull_digits {ds : List ℕ} (hpos : 0 < d) (h16 : d < 16) :
    strtoull ((d :: ds).map hexDigit) =
      min (readDigits 10 0 ((d :: ds).map hexDigit)) (2 ^ 64 - 1) := by
  have hnat := hexDigit_toNat h16
  have hspace : isSpace (hexDigit d) = false := by interval_cases d <;> rfl
  have hminus : hexDigit d ≠ 0x2d := by interval_cases d <;> decide
  have hplus : hexDigit d ≠ 0x2b := by interval_cases d <;> decide
  have hzero : hexDigit d ≠ 0x30 := by interval_cases d <;> decide
  have hbase : findBase ((d :: ds).map hexDigit) = (10, (d :: ds).map hexDigit) := by
    have hno : ∀ p : Prop, ¬(hexDigit d = 0x30 ∧ p) := fun p h => hzero h.1
    match ds with
    | [] => exact if_neg hzero
    | [e] => exact if_neg hzero
    | e :: f :: es => exact (if_neg (hno _)).trans (if_neg hzero)
  rw [strtoull]
  simp only [map_cons, dropWhile_cons, hspace, Bool.false_eq_true, if_false,
    head?_cons, Option.some.injEq, hminus, hplus, or_self]
  rw [← map_cons, hbase]
  dsimp only
  split_ifs <;> omega

/-- **A number is read back only when it has one decimal digit.** -/
theorem strtoull_hexText (h64 : n < 2 ^ 64) : strtoull (hexText n) = n ↔ n < 10 := by
  constructor
  · intro h
    by_contra hge
    have hne : n ≠ 0 := by omega
    obtain ⟨d, ds, hdigits, hpos, h16, hds⟩ := digits_reverse hne
    have hn := number_digits n
    rw [hexText_of_ne_zero hne, hdigits, strtoull_digits hpos h16] at h
    rw [hdigits] at hn
    have hlt : readDigits 10 0 ((d :: ds).map hexDigit) < n := by
      rw [← hn, map_cons, readDigits, digitValue_hexDigit h16]
      simp only [zero_mul, zero_add]
      have hstep : number 16 0 (d :: ds) = number 16 d ds := by simp [number]
      rw [hstep] at hn ⊢
      split_ifs with hd
      · cases ds with
        | nil =>
          obtain rfl : d = n := hn
          omega
        | cons e es =>
          have hlow := le_number (d * 16 + e) es
          rw [map_cons, readDigits, digitValue_hexDigit (hds e mem_cons_self)]
          simp only
          have hstep' : number 16 d (e :: es) = number 16 (d * 16 + e) es := rfl
          rw [hstep']
          split_ifs
          · exact readDigits_lt_number (by omega) fun x hx => hds x (.tail e hx)
          · omega
      · exact hpos.trans_le (le_number d ds)
    omega
  · intro h
    by_cases hzero : n = 0
    · subst hzero
      rfl
    · rw [hexText_of_ne_zero hzero, digits_of_lt 16 n hzero (by omega)]
      interval_cases n <;> rfl

/-! ## Lines -/

/-- A line is read up to its newline. -/
theorem getLines_append {line : List QByte} (hnewline : newline ∉ line) (hreturn : (0x0d : QByte) ∉ line) {room : ℕ}
    {front : List QByte} (hfront : (0x0d : QByte) ∉ front) (hroom : line.length < room) :
    getLines room front (line ++ newline :: text) =
      (front.reverse ++ line) :: getLines 255 [] text := by
  induction line generalizing room front with
  | nil =>
    have hhead : front.head? ≠ some 0x0d := fun h => hfront (mem_of_mem_head? h)
    rw [nil_append, getLines.eq_3, if_pos rfl, if_neg hhead, append_nil]
  | cons c line ih =>
    obtain ⟨hc, hnewline⟩ := ne_and_not_mem_of_not_mem_cons hnewline
    obtain ⟨hc', hreturn⟩ := ne_and_not_mem_of_not_mem_cons hreturn
    rw [length_cons] at hroom
    rw [cons_append, getLines.eq_3, if_neg (Ne.symm hc), if_neg (by omega),
      ih hnewline hreturn (not_mem_cons_of_ne_of_not_mem hc' hfront) (by omega), reverse_cons,
      append_assoc, singleton_append]

/-- A byte of a saved line that is no blank. -/
def Plain (c : QByte) : Prop :=
  32 < c.toInt ∧ c ≠ quote ∧ c ≠ slash ∧ c ≠ newline ∧ c ≠ 0x0d ∧ c ≠ 0

/-- A token is read up to a blank, or to the end. -/
theorem parseOut_plain (stale : List QByte) {w : List QByte} (hw : w ≠ []) (hplain : ∀ x ∈ w, Plain x)
    (hlen : w.length ≤ 127) (htext : text = [] ∨ text.head? = some blank) {front : List QByte}
    (hfront : front = [] ∨ front = [blank]) :
    parseOut stale (some (front ++ (w ++ text))) = (w, some text) := by
  obtain ⟨c, w, rfl⟩ := exists_cons_of_ne_nil hw
  obtain ⟨hgraphic, hquote, hslash, -⟩ := hplain c (.head _)
  have hwhite : ¬ c.toInt ≤ 32 := not_le.2 hgraphic
  have hskip : skipWhite .white (c :: (w ++ text)) = some (c :: (w ++ text)) := by
    rw [skipWhite.eq_2, if_neg hwhite, if_neg fun h => hslash h.1, if_neg fun h => hslash h.1]
  have hskip' : skipWhite .white (front ++ (c :: w ++ text)) = some (c :: (w ++ text)) := by
    rcases hfront with rfl | rfl
    · exact hskip
    · rw [singleton_append, skipWhite.eq_2, if_pos (by decide)]
      exact hskip
  have htoken : (c :: (w ++ text)).takeWhile (fun c => decide (32 < c.toInt)) = c :: w := by
    rw [← cons_append, takeWhile_append_of_pos fun d hd => by simpa using (hplain d hd).1]
    rcases htext with rfl | htext
    · rw [takeWhile_nil, append_nil]
    · obtain ⟨rest, rfl⟩ : ∃ rest, text = blank :: rest := by
        cases text with
        | nil => cases htext
        | cons b rest => exact ⟨rest, by rw [Option.some.inj htext]⟩
      rw [takeWhile_cons_of_neg (by decide), append_nil]
  rw [parseOut, Option.bind_some, hskip']
  simp only
  rw [if_neg hquote, htoken, take_of_length_le hlen, ← cons_append, drop_left]

theorem plain_hexDigit : ∀ d < 16, Plain (hexDigit d) := by
  intro d hd
  interval_cases d <;> exact ⟨by decide, by decide, by decide, by decide, by decide, by decide⟩

theorem plain_kind (b : DlBlock) : Plain b.kind := by
  rw [DlBlock.kind]
  split_ifs <;> exact ⟨by decide, by decide, by decide, by decide, by decide, by decide⟩

/-- A printed number is one token, and not too long. -/
theorem hexText_plain (h64 : n < 2 ^ 64) :
    hexText n ≠ [] ∧ (∀ x ∈ hexText n, Plain x) ∧ (hexText n).length ≤ 16 := by
  by_cases hzero : n = 0
  · subst hzero
    refine ⟨cons_ne_nil _ _, fun x hx => ?_, by decide⟩
    rw [mem_singleton.1 hx]
    exact plain_hexDigit 0 (by omega)
  · obtain ⟨d, ds, hdigits, -, hd, hds⟩ := digits_reverse hzero
    have hlen : (d :: ds).length ≤ 16 := by
      rw [← hdigits, length_reverse, digits_length_le_iff (by omega)]
      exact h64
    rw [hexText_of_ne_zero hzero, hdigits]
    refine ⟨cons_ne_nil _ _, fun x hx => ?_, by simpa using hlen⟩
    obtain ⟨e, he, rfl⟩ := mem_map.1 hx
    rcases mem_cons.1 he with rfl | he
    · exact plain_hexDigit e hd
    · exact plain_hexDigit e (hds e he)

/-- The bytes of a saved line. -/
theorem line_bytes (hstart : b.start < 2 ^ 64) (hstop : b.stop < 2 ^ 64) {x : QByte}
    (hx : x ∈ b.line) : x = blank ∨ Plain x := by
  rcases mem_append.1 hx with hx | hx
  · rcases mem_append.1 hx with hx | hx
    · rcases mem_append.1 hx with hx | hx
      · rcases mem_cons.1 hx with rfl | hx
        · exact .inr (plain_kind b)
        · exact .inl (mem_singleton.1 hx)
      · exact .inr ((hexText_plain hstart).2.1 x hx)
    · exact .inl (mem_singleton.1 hx)
  · exact .inr ((hexText_plain hstop).2.1 x hx)

/-- **The entry of a saved line.** -/
theorem parseEntry_line (stale : List QByte) (hstart : b.start < 2 ^ 64)
    (hstop : b.stop < 2 ^ 64) : parseEntry stale b.line =
      ⟨b.kind, strtoull (hexText b.start), strtoull (hexText b.stop)⟩ := by
  obtain ⟨hs, hs', hlen⟩ := hexText_plain hstart
  obtain ⟨he, he', hlen'⟩ := hexText_plain hstop
  have hk : ∀ x ∈ [b.kind], Plain x := fun x hx => by
    rw [mem_singleton.1 hx]
    exact plain_kind b
  have hnull : b.line.takeWhile (· ≠ 0) = b.line := by
    refine takeWhile_eq_self_iff.2 fun x hx => ?_
    rw [decide_eq_true_iff]
    rcases line_bytes hstart hstop hx with rfl | hp
    · decide
    · exact hp.2.2.2.2.2
  set behind := [blank] ++ (hexText b.stop ++ []) with hbehind
  have hline : b.line = [] ++ ([b.kind] ++ ([blank] ++ (hexText b.start ++ behind))) := by
    simp [DlBlock.line, hbehind]
  have hkind : parseOut stale (some ([] ++ ([b.kind] ++ ([blank] ++ (hexText b.start ++ behind))))) =
      ([b.kind], some ([blank] ++ (hexText b.start ++ behind))) :=
    parseOut_plain stale (by simp) hk (by simp) (.inr rfl) (.inl rfl)
  have hfirst : parseOut stale (some ([blank] ++ (hexText b.start ++ behind))) = (hexText b.start, some behind) :=
    parseOut_plain stale hs hs' (by omega) (.inr rfl) (.inr rfl)
  have hlast : parseOut stale (some behind) = (hexText b.stop, some []) :=
    parseOut_plain stale he he' (by omega) (.inl rfl) (.inr rfl)
  rw [parseEntry, hnull, hline, hkind]
  simp only [hfirst, hlast, headD_cons]

/-- **The lines of a saved list.** -/
theorem getLines_saved (h64 : ∀ b ∈ blocks, b.start < 2 ^ 64 ∧ b.stop < 2 ^ 64) :
    getLines 255 [] (blocks.flatMap fun b => b.line ++ [newline]) = blocks.map DlBlock.line := by
  induction blocks with
  | nil => rfl
  | cons b blocks ih =>
    obtain ⟨hstart, hstop⟩ := h64 b (.head _)
    have hnewline : newline ∉ b.line := fun h =>
      (line_bytes hstart hstop h).elim (by decide) fun hp => hp.2.2.2.1 rfl
    have hreturn : (0x0d : QByte) ∉ b.line := fun h =>
      (line_bytes hstart hstop h).elim (by decide) fun hp => hp.2.2.2.2.1 rfl
    have hlength : b.line.length < 255 := by
      have hs := (hexText_plain hstart).2.2
      have he := (hexText_plain hstop).2.2
      simp only [DlBlock.line, length_append, length_cons, length_nil]
      omega
    rw [flatMap_cons, append_assoc, singleton_append, getLines_append hnewline hreturn not_mem_nil hlength, map_cons,
      ih fun b' hb' => h64 b' (.tail b hb'), reverse_nil, nil_append]

/-! ## The saved list -/

/-- The blocks follow each other from `a` to `z`. -/
def Follows : ℕ → List DlBlock → ℕ → Prop
  | a, [], z => a = z
  | a, b :: blocks, z => b.start = a ∧ a ≤ b.stop ∧ Follows b.stop blocks z

theorem Follows.le (h : Follows a blocks z) : a ≤ z := by
  induction blocks generalizing a with
  | nil => exact le_of_eq h
  | cons b blocks ih => exact h.2.1.trans (ih h.2.2)

theorem Follows.bounds (h : Follows a blocks z) :
    ∀ b ∈ blocks, b.start ≤ b.stop ∧ b.stop ≤ z := by
  induction blocks generalizing a with
  | nil => exact fun b hb => absurd hb not_mem_nil
  | cons b blocks ih =>
    obtain ⟨rfl, hle, hrest⟩ := h
    intro c hc
    rcases mem_cons.1 hc with rfl | hc
    · exact ⟨hle, hrest.le⟩
    · exact ih hrest c hc

theorem Follows.receivedBytes_le (h : Follows a blocks z) :
    receivedBytes blocks ≤ z - a := by
  induction blocks generalizing a with
  | nil => exact zero_le _
  | cons b blocks ih =>
    obtain ⟨rfl, hle, hrest⟩ := h
    have hsum := ih hrest
    have hz := hrest.le
    rw [receivedBytes] at hsum ⊢
    rw [total_cons]
    split_ifs <;> omega

/-- Two lists with the same received blocks. -/
def SameReceived (blocks blocks' : List DlBlock) : Prop :=
  receivedBytes blocks' = receivedBytes blocks ∧ ∀ x, Received blocks' x ↔ Received blocks x

theorem mergeMissing_spec {rest : List DlBlock} (hb : b.state ≠ .received) (h : Follows a (b :: rest) z) :
    Follows a ((mergeMissing b rest).1 :: (mergeMissing b rest).2) z ∧
      (mergeMissing b rest).1.state ≠ .received ∧ SameReceived rest (mergeMissing b rest).2 := by
  induction rest generalizing b with
  | nil => exact ⟨h, hb, rfl, fun _ => Iff.rfl⟩
  | cons n rest ih =>
    rw [mergeMissing]
    split_ifs with hn
    · obtain ⟨hstart, hle, hn', hle', hrest⟩ := h
      obtain ⟨hf, hs, hbytes, hreceived⟩ :=
        ih (b := { b with stop := n.stop }) hb ⟨hstart, hle.trans hle', hrest⟩
      refine ⟨hf, hs, ?_, fun x => ?_⟩
      · rw [hbytes, receivedBytes, receivedBytes, total_cons, if_neg hn, zero_add]
      · rw [hreceived, Received, Received, marked_cons]
        exact (or_iff_right fun h => hn h.1).symm
    · exact ⟨h, hb, rfl, fun _ => Iff.rfl⟩

/-- **What is saved follows each other and has the same received bytes.** -/
theorem savedBlocks_spec (h : Follows a blocks z) :
    Follows a (savedBlocks blocks) z ∧ SameReceived blocks (savedBlocks blocks) := by
  induction blocks using savedBlocks.induct generalizing a with
  | case1 =>
    rw [savedBlocks]
    exact ⟨h, rfl, fun _ => Iff.rfl⟩
  | case2 b rest hb ih =>
    obtain ⟨hstart, hle, hrest⟩ := h
    obtain ⟨hf, hbytes, hreceived⟩ := ih hrest
    rw [savedBlocks, if_pos hb]
    refine ⟨⟨hstart, hle, hf⟩, ?_, fun x => ?_⟩
    · rw [receivedBytes, receivedBytes, total_cons, total_cons]
      exact congrArg _ hbytes
    · rw [Received, Received, marked_cons, marked_cons]
      exact or_congr_right (hreceived x)
  | case3 b rest hb next =>
    rename_i ih
    obtain ⟨hmerged, hstate, hbytes, hreceived⟩ := mergeMissing_spec hb h
    obtain ⟨hf, hbytes', hreceived'⟩ := ih hmerged.2.2
    rw [savedBlocks, if_neg hb]
    refine ⟨⟨hmerged.1, hmerged.2.1, hf⟩, ?_, fun x => ?_⟩
    · rw [receivedBytes, receivedBytes, total_cons, total_cons, if_neg hstate, if_neg hb]
      exact congrArg _ (hbytes'.trans hbytes)
    · rw [Received, Received, marked_cons, marked_cons, or_iff_right fun h => hstate h.1,
        or_iff_right fun h => hb h.1]
      exact (hreceived' x).trans (hreceived x)

/-! ## The list that is read -/

/-- The lines as they are read, from line `i` on. -/
def readEntries (stale : ℕ → List QByte) : (i : ℕ) → List (List QByte) → List Entry
  | _, [] => []
  | i, line :: lines => parseEntry (stale i) line :: readEntries stale (i + 1) lines

/-- The entries go from `a` to `size` without gaps. -/
def Consistent : List Entry → ℕ → ℕ → Prop
  | [], a, size => a = size
  | e :: entries, a, size => e.start = a ∧ Consistent entries e.stop size

/-- The list can be read, and is consistent with the size. -/
def Accepts (stale : ℕ → List QByte) (disk : Disk) (size : ℕ) : Prop :=
  ∃ text, disk.dcl = some text ∧ Consistent (readEntries stale 0 (getLines 255 [] text)) 0 size

theorem loadBlocks_iff {i c : ℕ} {lines : List (List QByte)} :
    ((loadBlocks stale i c a lines).error = false ∧ (loadBlocks stale i c a lines).lastend = size) ↔
      Consistent (readEntries stale i lines) a size := by
  induction lines generalizing i c a with
  | nil => simp [loadBlocks, readEntries, Consistent]
  | cons line lines ih =>
    rw [loadBlocks, readEntries, Consistent]
    by_cases hstart : (parseEntry (stale i) line).start = a
    · simp only [ne_eq, hstart, not_true_eq_false, if_false, true_and]
      exact ih
    · simp [hstart]

theorem loadBlocks_dlblocks {i c : ℕ} {lines : List (List QByte)} (h : (loadBlocks stale i c a lines).error = false) :
    (loadBlocks stale i c a lines).dlblocks = (readEntries stale i lines).map Entry.block ∧
      (c < 2 ^ 64 → (loadBlocks stale i c a lines).completedbytes =
        (c + (((readEntries stale i lines).filter (·.kind = kindReceived)).map
          (·.block.length)).sum) % 2 ^ 64) := by
  induction lines generalizing i c a with
  | nil =>
    refine ⟨rfl, fun hc => ?_⟩
    simpa [loadBlocks, readEntries] using (mod_eq_of_lt hc).symm
  | cons line lines ih =>
    rw [loadBlocks] at h ⊢
    by_cases hstart : (parseEntry (stale i) line).start = a
    · simp only [ne_eq, hstart, not_true_eq_false, if_false] at h ⊢
      obtain ⟨hblocks, hcompleted⟩ := ih h
      refine ⟨by rw [readEntries, map_cons, hblocks], fun hc => ?_⟩
      by_cases hkind : (parseEntry (stale i) line).kind = kindReceived
      · simp only [hkind, if_true] at hcompleted ⊢
        rw [hcompleted (mod_lt _ (by decide)), readEntries,
          filter_cons_of_pos (by simpa using hkind), map_cons, sum_cons,
          mod_add_mod, add_assoc]
      · simp only [hkind, if_false] at hcompleted ⊢
        rw [hcompleted hc, readEntries, filter_cons_of_neg (by simpa using hkind)]
    · simp [hstart] at h

/-- The entry that is read for a saved block. -/
def DlBlock.entry (b : DlBlock) : Entry :=
  ⟨b.kind, strtoull (hexText b.start), strtoull (hexText b.stop)⟩

theorem readEntries_saved (stale : ℕ → List QByte) (i : ℕ) (h64 : ∀ b ∈ blocks, b.start < 2 ^ 64 ∧ b.stop < 2 ^ 64) :
    readEntries stale i (blocks.map DlBlock.line) = blocks.map DlBlock.entry := by
  induction blocks generalizing i with
  | nil => rfl
  | cons b blocks ih =>
    obtain ⟨hstart, hstop⟩ := h64 b (.head _)
    rw [map_cons, readEntries, parseEntry_line (stale i) hstart hstop, ih _ fun c hc => h64 c (.tail b hc)]
    rfl

theorem strtoull_hexText_of_lt (h : n < 10) : strtoull (hexText n) = n :=
  (strtoull_hexText (by omega)).2 h

/-- **A saved list is accepted only for a file of less than ten bytes.** -/
theorem consistent_saved (hne : blocks ≠ []) (h64 : z < 2 ^ 64) (h : Follows a blocks z) :
    Consistent (blocks.map DlBlock.entry) (strtoull (hexText a)) z ↔ z < 10 := by
  induction blocks generalizing a with
  | nil => exact absurd rfl hne
  | cons b blocks ih =>
    obtain ⟨rfl, hle, hrest⟩ := h
    have hz := hrest.le
    rw [map_cons, Consistent]
    by_cases hnil : blocks = []
    · subst hnil
      obtain rfl : b.stop = z := hrest
      exact (and_iff_right rfl).trans (strtoull_hexText h64)
    · exact (and_iff_right rfl).trans (ih hnil hrest)

/-- A list of small numbers is read as it was. -/
theorem entry_block (hle : b.start ≤ b.stop) (h : b.stop < 10) :
    b.entry.block.start = b.start ∧ b.entry.block.stop = b.stop ∧
      (b.entry.block.state = .received ↔ b.state = .received) ∧
      (b.entry.kind = kindReceived ↔ b.state = .received) := by
  have hkind : b.entry.kind = kindReceived ↔ b.state = .received := by
    rw [DlBlock.entry, DlBlock.kind]
    split_ifs with hb
    · exact iff_of_true rfl hb
    · exact iff_of_false (show kindMissing ≠ kindReceived by decide) hb
  refine ⟨strtoull_hexText_of_lt (by omega), strtoull_hexText_of_lt h, ?_, hkind⟩
  rw [← hkind, Entry.block]
  split_ifs with hk
  · exact iff_of_true rfl hk
  · exact iff_of_false (by simp) hk

/-- **The blocks of a small list are read as they were saved.** -/
theorem entries_sameReceived (h10 : z < 10) (h : Follows a blocks z) :
    SameReceived blocks ((blocks.map DlBlock.entry).map Entry.block) ∧
      (((blocks.map DlBlock.entry).filter (·.kind = kindReceived)).map (·.block.length)).sum =
        receivedBytes blocks := by
  induction blocks generalizing a with
  | nil => exact ⟨⟨rfl, fun _ => Iff.rfl⟩, rfl⟩
  | cons b blocks ih =>
    obtain ⟨hstart, hle, hrest⟩ := h
    obtain ⟨⟨hbytes, hreceived⟩, hsum⟩ := ih hrest
    have hz := hrest.le
    obtain ⟨hs, he, hstate, hkind⟩ := entry_block (hstart ▸ hle) (show b.stop < 10 by omega)
    refine ⟨⟨?_, fun x => ?_⟩, ?_⟩
    · simp only [receivedBytes, map_cons, total_cons, hs, he, hstate] at hbytes ⊢
      rw [hbytes]
    · simp only [Received, map_cons, marked_cons, hs, he, hstate]
      exact or_congr_right (hreceived x)
    · rw [receivedBytes] at hsum ⊢
      rw [map_cons, total_cons, ← hsum]
      by_cases hb : b.state = .received
      · rw [filter_cons_of_pos (by simpa using hkind.2 hb), map_cons, sum_cons,
          if_pos hb, DlBlock.length, hs, he]
        omega
      · rw [filter_cons_of_neg (by simpa using fun h => hb (hkind.1 h)), if_neg hb,
          zero_add]

/-! ## Resuming -/

theorem dlBegun_of_not_accepts (platform : Platform) {disk : Disk} (h : ¬ Accepts stale disk size) :
    (dlBegun platform stale disk size).dlblocks = [⟨0, size, .missing, 0#32⟩] ∧
      (dlBegun platform stale disk size).completedbytes = 0 := by
  rw [dlBegun]
  cases hdcl : disk.dcl with
  | none => exact ⟨rfl, rfl⟩
  | some text =>
    have hno : (loadBlocks stale 0 0 0 (getLines 255 [] text)).error = true ∨
        (loadBlocks stale 0 0 0 (getLines 255 [] text)).lastend ≠ size := by
      by_contra hyes
      rw [not_or, Bool.not_eq_true, not_not] at hyes
      exact h ⟨text, hdcl, loadBlocks_iff.1 hyes⟩
    simp [hno, and_self]

theorem dlBegun_of_accepts (platform : Platform) {disk : Disk} (hdcl : disk.dcl = some text)
    (h : Consistent (readEntries stale 0 (getLines 255 [] text)) 0 size)
    (hne : readEntries stale 0 (getLines 255 [] text) ≠ []) :
    dlBegun platform stale disk size =
      ⟨size, (readEntries stale 0 (getLines 255 [] text)).map Entry.block,
        ((((readEntries stale 0 (getLines 255 [] text)).filter (·.kind = kindReceived)).map
          (·.block.length)).sum) % 2 ^ 64, openContinue platform disk.temp⟩ := by
  obtain ⟨herror, hlast⟩ := loadBlocks_iff (c := 0).2 h
  obtain ⟨hblocks, hcompleted⟩ := loadBlocks_dlblocks herror
  rw [dlBegun, hdcl]
  simp only [herror, hlast, Bool.false_eq_true, ne_eq, not_true_eq_false, or_self, if_false]
  rw [hblocks, hcompleted (by decide), zero_add, if_neg (by simpa using hne)]

/-- A download in the state in which it is aborted. -/
structure Aborted (dl : QDownload) : Prop where
  size : dl.size < 2 ^ 64
  nonempty : dl.dlblocks ≠ []
  follows : Follows 0 dl.dlblocks dl.size
  written : ∀ x, Received dl.dlblocks x → (dl.file x).isSome

/-- What is resumed is what was received, and a list that is not accepted counts for nothing. -/
def ResumesCorrectly (platform : Platform) (dl : QDownload) : Prop :=
  (∀ stale disk, Accepts stale (dlAbort disk dl) dl.size →
    (∀ x, Received (dlBegun platform stale (dlAbort disk dl) dl.size).dlblocks x ↔
      Received dl.dlblocks x) ∧
    (dlBegun platform stale (dlAbort disk dl) dl.size).completedbytes = receivedBytes dl.dlblocks ∧
    ∀ x, Received dl.dlblocks x →
      (dlBegun platform stale (dlAbort disk dl) dl.size).file x = dl.file x) ∧
  ∀ stale disk, ¬ Accepts stale disk dl.size →
    (dlBegun platform stale disk dl.size).dlblocks = [⟨0, dl.size, .missing, 0#32⟩] ∧
    (dlBegun platform stale disk dl.size).completedbytes = 0

variable {dl : QDownload}

theorem Aborted.saved (h : Aborted dl) :
    Follows 0 (savedBlocks dl.dlblocks) dl.size ∧ savedBlocks dl.dlblocks ≠ [] ∧
      ∀ b ∈ savedBlocks dl.dlblocks, b.start < 2 ^ 64 ∧ b.stop < 2 ^ 64 := by
  have hf := (savedBlocks_spec h.follows).1
  refine ⟨hf, ?_, fun b hb => ?_⟩
  · obtain ⟨b, rest, hblocks⟩ := exists_cons_of_ne_nil h.nonempty
    rw [hblocks, savedBlocks]
    split_ifs <;> exact cons_ne_nil _ _
  · have hb' := hf.bounds b hb
    have hsize := h.size
    omega

/-- The entries of the list that an aborted download leaves. -/
theorem Aborted.entries (h : Aborted dl) (stale : ℕ → List QByte) (disk : Disk) :
    (dlAbort disk dl).dcl = some (saveText dl.dlblocks) ∧ (dlAbort disk dl).temp = some dl.file ∧
      readEntries stale 0 (getLines 255 [] (saveText dl.dlblocks)) =
        (savedBlocks dl.dlblocks).map DlBlock.entry := by
  rw [dlAbort, if_neg h.nonempty, saveText, getLines_saved h.saved.2.2, readEntries_saved stale 0 h.saved.2.2]
  exact ⟨rfl, rfl, rfl⟩

/-- **The list that an aborted download leaves is accepted only for files of less than ten bytes.** -/
theorem Aborted.accepts_iff (h : Aborted dl) (stale : ℕ → List QByte) (disk : Disk) :
    Accepts stale (dlAbort disk dl) dl.size ↔ dl.size < 10 := by
  obtain ⟨hdcl, -, hentries⟩ := h.entries stale disk
  obtain ⟨hf, hne, -⟩ := h.saved
  have hzero : strtoull (hexText 0) = 0 := rfl
  rw [← consistent_saved hne h.size hf, hzero, ← hentries]
  constructor
  · rintro ⟨text, htext, hc⟩
    obtain rfl := Option.some.inj (hdcl.symm.trans htext)
    exact hc
  · exact fun hc => ⟨_, hdcl, hc⟩

/-- What an accepted list restores. -/
theorem Aborted.restored (h : Aborted dl) (platform : Platform) (stale : ℕ → List QByte) (disk : Disk)
    (h10 : dl.size < 10) :
    (∀ x, Received (dlBegun platform stale (dlAbort disk dl) dl.size).dlblocks x ↔
      Received dl.dlblocks x) ∧
    (dlBegun platform stale (dlAbort disk dl) dl.size).completedbytes = receivedBytes dl.dlblocks ∧
    (dlBegun platform stale (dlAbort disk dl) dl.size).file = openContinue platform (some dl.file) := by
  obtain ⟨hdcl, htemp, hentries⟩ := h.entries stale disk
  obtain ⟨hf, hne, -⟩ := h.saved
  obtain ⟨text, htext, hc⟩ := (h.accepts_iff stale disk).2 h10
  obtain rfl := Option.some.inj (hdcl.symm.trans htext)
  obtain ⟨-, hbytes, hreceived⟩ := savedBlocks_spec h.follows
  obtain ⟨⟨-, hreceived'⟩, hsum⟩ := entries_sameReceived h10 hf
  have hle := hf.receivedBytes_le
  have hsize := h.size
  rw [dlBegun_of_accepts platform hdcl hc (by rw [hentries]; simpa using hne), hentries, htemp]
  refine ⟨fun x => (hreceived' x).trans (hreceived x), ?_, rfl⟩
  dsimp only
  rw [hsum, ← hbytes]
  omega

/-- **Interrupted downloads resume correctly** exactly where the file that is continued is not truncated,
or there is nothing to keep: the list is not accepted, or no byte was received. -/
theorem resumesCorrectly_iff (h : Aborted dl) (platform : Platform) :
    ResumesCorrectly platform dl ↔
      platform = .windows ∨ 10 ≤ dl.size ∨ ∀ x, ¬ Received dl.dlblocks x := by
  constructor
  · intro hres
    by_contra hno
    rw [not_or, not_or, not_le, not_forall] at hno
    obtain ⟨hplatform, h10, x, hx⟩ := hno
    have hx := not_not.1 hx
    let disk : Disk := ⟨none, none⟩
    have hacc := (h.accepts_iff (fun _ => []) disk).2 h10
    have hfile := (hres.1 _ disk hacc).2.2 x hx
    rw [(h.restored platform (fun _ => []) disk h10).2.2] at hfile
    have hsome := h.written x hx
    cases platform with
    | windows => exact hplatform rfl
    | posix =>
      rw [← hfile] at hsome
      cases hsome
  · intro hcond
    refine ⟨fun stale disk hacc => ?_, fun stale disk hacc => dlBegun_of_not_accepts platform hacc⟩
    have h10 := (h.accepts_iff stale disk).1 hacc
    obtain ⟨hreceived, hbytes, hfile⟩ := h.restored platform stale disk h10
    refine ⟨hreceived, hbytes, fun x hx => ?_⟩
    rcases hcond with rfl | hlarge | hnone
    · rw [hfile]
      rfl
    · omega
    · exact absurd hx (hnone x)

/-- A file of five bytes of which three have arrived. -/
def partial5 : QDownload :=
  ⟨5, [⟨0, 3, .received, 0#32⟩, ⟨3, 5, .pending, 7#32⟩], 3, fun x => if x < 3 then some 9 else none⟩

theorem aborted_partial5 : Aborted partial5 := by
  refine ⟨by decide, by decide, ⟨rfl, by decide, rfl, by decide, rfl⟩, fun x hx => ?_⟩
  simp only [partial5, Received, marked_cons, marked_nil] at hx
  simp [partial5, show x < 3 by simpa using hx]

theorem resumesCorrectly_windows : ResumesCorrectly .windows partial5 :=
  (resumesCorrectly_iff aborted_partial5 .windows).2 (.inl rfl)

/-- Elsewhere the file is truncated, and its list says that three bytes are there. -/
theorem resume_truncates : ¬ ResumesCorrectly .posix partial5 := by
  intro h
  have hacc := (aborted_partial5.accepts_iff (fun _ => []) ⟨none, none⟩).2 (by decide)
  have hx : Received partial5.dlblocks 0 := by simp [partial5, Received]
  have hfile := (h.1 _ ⟨none, none⟩ hacc).2.2 0 hx
  rw [(aborted_partial5.restored .posix (fun _ => []) ⟨none, none⟩ (by decide)).2.2] at hfile
  cases hfile

end Download

end FteQuake
