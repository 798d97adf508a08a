import FteQuake.Common.ParseCString
import FteQuake.Common.TokenMacros

/-!
# Tokens of the console

`COM_StringParse` of `common.c`. The text is a list of characters with a terminator behind it, and `data` the
part of it that is left. Only the branch for single quotes reads behind the terminator; its pointer may also be
returned there (`behind`). Stores outside the buffer of the token fail.

With `expandmacros` a word, and nothing else, is looked through for macros. So the token is expanded where
at most one of its names has a string, unless that makes it one character too long, or makes the loop look
behind the token at a `$`, or at the end of the buffer.
-/

namespace FteQuake

open List Option

namespace StringParse

open Mem

/-! ## The code -/

/-- Where the loops before a token are: at white space, in a comment of a line, at the `*` that begins a comment, in
it, and at the `/` that ends it. -/
inductive Skip
  | white
  | line
  | opening
  | block
  | closing

/-- White space and comments. A line end is a token. -/
def skipWhite (qctokenize : Bool) : Skip → List QByte → List QByte
  | _, [] => []
  | .white, c :: data =>
    if c ≤ 32 ∧ c ≠ 10 then skipWhite qctokenize .white data
    else if c = 47 ∧ data.head? = some 47 then skipWhite qctokenize .line data
    else if c = 47 ∧ data.head? = some 42 ∧ !qctokenize then skipWhite qctokenize .opening data
    else c :: data
  | .line, c :: data => if c = 10 then c :: data else skipWhite qctokenize .line data
  | .opening, _ :: data => skipWhite qctokenize .block data
  | .block, c :: data =>
    if c = 42 ∧ data.head? = some 47 then skipWhite qctokenize .closing data else skipWhite qctokenize .block data
  | .closing, _ :: data => skipWhite qctokenize .white data

/-- The characters that are tokens of their own. -/
def isMark (c : QByte) : Bool := c ∈ [(10 : QByte), 123, 125, 41, 40, 93, 91, 39, 58, 44, 59]

/-- How the parser ends: without a token, or with `data` at a place, one behind the terminator, at a word that is cut, or
behind a word of a length. -/
inductive Ended
  | null
  | here (data : List QByte)
  | behind
  | cut (data : List QByte)
  | word (data : List QByte) (len : ℕ)
  deriving DecidableEq

section Code

variable (cap : ℕ)

/-- A loop over a quoted string. The character behind one that `escapes` is stored as it is. -/
def quotedLoop (escapes : QByte → QByte → Bool) : (escaped : Bool) → List QByte → Mem QByte → ℕ →
    Option (Mem QByte × Ended)
  | _, [], token, len => (token.put cap len 0).map (·, .here [])
  | true, c :: data, token, len => (token.put cap len c).bind fun token => quotedLoop escapes false data token (len + 1)
  | false, c :: data, token, len =>
    if cap - 1 ≤ len then (token.put cap len 0).map (·, .here (c :: data))
    else if data.head?.any (escapes c) then quotedLoop escapes true data token len
    else if c = 34 then (token.put cap len 0).map (·, .here data)
    else (token.put cap len c).bind fun token => quotedLoop escapes false data token (len + 1)

/-- `dpcompat_console`: a backslash escapes quotes and backslashes. -/
def escapesDp (c d : QByte) : Bool := c = 92 && (d = 34 || d = 92)

/-- Otherwise a quote escapes a quote. -/
def escapesQuote (c d : QByte) : Bool := c = 34 && d = 34

/-- The loop over a string in single quotes. `again` is the loop at a quote behind a quote: it reads `*(data+1)`
where `data` is behind that quote already. -/
def singleLoop : (again : Bool) → List QByte → Mem QByte → ℕ → Option (Mem QByte × Ended)
  | false, [], token, len =>
    (token.put cap len 0).map (·, if cap - 1 ≤ len then .here [] else .behind)
  | false, c :: data, token, len =>
    if cap - 1 ≤ len then (token.put cap len 0).map (·, .here (c :: data))
    else if c = 39 then
      if data.head? = some 39 then singleLoop true data token len else (token.put cap len 0).map (·, .here data)
    else (token.put cap len c).bind fun token => singleLoop false data token (len + 1)
  | true, [], _, _ => none
  | true, _ :: data, token, len => (token.put cap len 39).bind fun token =>
    match data with
    | [] => none
    | [_] => (token.put cap (len + 1) 0).map (·, .here data)
    | _ :: c :: _ =>
      if c = 39 then singleLoop true data token (len + 1)
      else (token.put cap (len + 1) c).bind fun token => singleLoop false data token (len + 2)

/-- A character that goes on with a word. -/
def isWordByte (qctokenize : Bool) (c : QByte) : Bool := 32 < c && !(qctokenize && isMark c)

/-- The loop over a word: the first character belongs to it. -/
def wordLoop (qctokenize : Bool) : List QByte → Mem QByte → ℕ → Option (Mem QByte × Ended)
  | [], token, len => (token.put cap len 0).map (·, .word [] len)
  | c :: data, token, len =>
    if cap - 1 ≤ len then (token.put cap len 0).map (·, .cut (c :: data))
    else (token.put cap len c).bind fun token =>
      if data.head?.any (isWordByte qctokenize) then wordLoop qctokenize data token (len + 1)
      else (token.put cap (len + 1) 0).map (·, .word data (len + 1))

/-- What `COM_ParseCString` leaves. -/
def parseEscaped (data : List QByte) (token : Mem QByte) : Option (Mem QByte × Ended) :=
  (ParseCString.comParseCString (some (.ofBytes data)) (BitVec.ofNat 64 cap)).bind fun r =>
    (token.puts cap 0 r.written).map fun token =>
      (token, match r.result with
        | none => .null
        | some p => if p ≤ data.length then .here (data.drop p) else .behind)

/-- `COM_StringParse` without `expandmacros`, behind white space and comments. -/
def parseToken (dpcompatConsole qctokenize : Bool) (data : List QByte) (token : Mem QByte) :
    Option (Mem QByte × Ended) :=
  match data with
  | [] => some (token, .null)
  | c :: data =>
    if c = 10 then (token.puts cap 0 [c, 0]).map (·, .here data)
    else if c = 92 ∧ data.head? = some 34 then parseEscaped cap data token
    else if c = 34 then quotedLoop cap (if dpcompatConsole then escapesDp else escapesQuote) false data token 0
    else if c = 39 ∧ qctokenize then singleLoop cap false data token 0
    else if qctokenize ∧ isMark c then (token.puts cap 0 [c, 0]).map (·, .here data)
    else wordLoop cap qctokenize (c :: data) token 0

end Code

/-- What there is of a token without `expandmacros`. -/
def unexpanded (dpcompatConsole qctokenize : Bool) (data : Option CString) (token : Mem QByte) (tokenlen : BitVec 32) :
    Option (Mem QByte × Ended) :=
  (token.put tokenlen.toNat 0 0).bind fun token =>
    match data with
    | none => some (token, .null)
    | some data => parseToken tokenlen.toNat dpcompatConsole qctokenize (skipWhite qctokenize .white data.1) token

/-- `COM_StringParse`: the token, and how it ended. -/
def comStringParse (find : List QByte → Option CString) (dpcompatConsole : Bool) (data : Option CString)
    (token : Mem QByte) (tokenlen : BitVec 32) (expandmacros qctokenize : Bool) : Option (Mem QByte × Ended) :=
  (unexpanded dpcompatConsole qctokenize data token tokenlen).bind fun r =>
    match r.2 with
    | .word _ len =>
      if expandmacros then
        (macroLoop tokenlen.toNat find (tokenlen.toNat + 1) 0 0 len r.1).map (·, r.2)
      else some r
    | _ => some r

/-! ## What the claim is -/

/-- The token is a word, in which macros are looked for. -/
def Ended.isWord : Ended → Bool
  | cut _ => true
  | word _ _ => true
  | _ => false

/-- `COM_StringParse` stays in the text and in the buffer, and makes of a word what it stands for, if the buffer
holds that. Another token is left as it is. -/
def Expands (find : List QByte → Option CString) (dpcompatConsole qctokenize : Bool) (data : Option CString)
    (token : Mem QByte) (tokenlen : BitVec 32) : Prop :=
  ∃ r, comStringParse find dpcompatConsole data token tokenlen true qctokenize = some r ∧
    ∀ m e u, unexpanded dpcompatConsole qctokenize data token tokenlen = some (m, e) → m.Holds 0 u →
      if e.isWord then (expand find u).length < tokenlen.toNat → r.1.Holds 0 (expand find u) else r.1.Holds 0 u

section Clear

variable (cap : ℕ) (find : List QByte → Option CString)

/-- A quote behind a quote is come to in a string in single quotes. -/
def Doubled (data : List QByte) : Prop :=
  (data.takeWhile (· ≠ 39)).length + 1 < cap ∧ [39, 39] <+: data.dropWhile (· ≠ 39)

/-- At most one name of a word has a string. If one has, the word is not cut, the expanded one is not just one
character too long, and the bytes behind it that the loop looks at are clear. -/
def WordClear (run : List QByte) (token : Mem QByte) : Prop :=
  Plain find (run.take (cap - 1)) ∨ run.length < cap ∧ (expand find run).length + 1 ≠ cap ∧
    ∃ pre s value, Single find run pre s value ∧
      ((expand find run).length + 1 < cap → StaleClear cap (token.blit 0 (run ++ [0])) (expand find run) value.1)

/-- The parser comes to none of its defects, behind white space and comments. -/
def TokenClear (qctokenize : Bool) (data : List QByte) (token : Mem QByte) : Prop :=
  match data with
  | [] => 1 ≤ cap
  | c :: data =>
    if c = 10 then 2 ≤ cap
    else if c = 92 ∧ data.head? = some 34 then
      2 ≤ cap ∧ ∀ p n, ParseCString.Reaches data (cap - 2) p n → n < cap - 2 → ¬ParseCString.Dangles data p
    else if c = 34 then 1 ≤ cap
    else if c = 39 ∧ qctokenize then 1 ≤ cap ∧ ¬Doubled cap data
    else if qctokenize ∧ isMark c then 2 ≤ cap
    else 1 ≤ cap ∧ WordClear cap find (c :: data.takeWhile (isWordByte qctokenize)) token

/-- The parser comes to none of its defects. -/
def Clear (qctokenize : Bool) (data : Option CString) (token : Mem QByte) : Prop :=
  match data with
  | none => 1 ≤ cap
  | some data => TokenClear cap find qctokenize (skipWhite qctokenize .white data.1) (token.store 0 0)

end Clear

/-! ## The loops stay inside -/

section Inside

variable {cap len : ℕ} {token : Mem QByte} {data : List QByte}

theorem quotedLoop_inside (escapes : QByte → QByte → Bool) (escaped : Bool) (data : List QByte) (token : Mem QByte)
    (hlen : len + escaped.toNat < cap) :
    ∃ r, quotedLoop cap escapes escaped data token len = some r ∧ r.2.isWord = false := by
  induction data generalizing escaped token len with
  | nil =>
    rw [quotedLoop, put_of_lt (by omega)]
    exact ⟨_, rfl, rfl⟩
  | cons c data ih =>
    cases escaped with
    | true =>
      rw [quotedLoop, put_of_lt (by omega), bind_some]
      exact ih false _ hlen
    | false =>
      replace hlen : len < cap := hlen
      rw [quotedLoop]
      split
      · rw [put_of_lt hlen]
        exact ⟨_, rfl, rfl⟩
      have hroom : len + true.toNat < cap := by
        rw [Bool.toNat_true]
        omega
      split
      · exact ih true _ hroom
      split
      · rw [put_of_lt hlen]
        exact ⟨_, rfl, rfl⟩
      · rw [put_of_lt hlen, bind_some]
        exact ih false _ hroom

theorem singleLoop_inside (token : Mem QByte) (hlen : len < cap)
    (hclear : ¬(len + (data.takeWhile (· ≠ 39)).length + 1 < cap ∧ [39, 39] <+: data.dropWhile (· ≠ 39))) :
    ∃ r, singleLoop cap false data token len = some r ∧ r.2.isWord = false := by
  induction data generalizing token len with
  | nil =>
    rw [singleLoop, put_of_lt hlen]
    refine ⟨_, rfl, ?_⟩
    dsimp only
    split <;> rfl
  | cons c data ih =>
    rw [singleLoop]
    split
    · rw [put_of_lt hlen]
      exact ⟨_, rfl, rfl⟩
    rename_i hroom
    split
    · rename_i hquote
      subst hquote
      rw [if_neg, put_of_lt hlen]
      · exact ⟨_, rfl, rfl⟩
      · intro hdouble
        obtain ⟨rest, rfl⟩ := head?_eq_some_iff.mp hdouble
        exact hclear ⟨by rw [takeWhile_cons_of_neg (by decide), length_nil]; omega, rest, rfl⟩
    · rename_i hquote
      rw [put_of_lt hlen, bind_some]
      rw [takeWhile_cons, if_pos (decide_eq_true hquote), dropWhile_cons, if_pos (decide_eq_true hquote),
        length_cons] at hclear
      exact ih _ (by omega) fun h => hclear ⟨by omega, h.2⟩

theorem wordLoop_cons (qctokenize : Bool) (c : QByte) (data : List QByte) (token : Mem QByte) (hroom : len + 1 < cap) :
    wordLoop cap qctokenize (c :: data) token len =
      if data.head?.any (isWordByte qctokenize) then wordLoop cap qctokenize data (token.blit len [c]) (len + 1)
      else some (token.blit len [c, 0], .word data (len + 1)) := by
  rw [wordLoop, if_neg (by omega), put_of_lt (by omega), bind_some]
  split
  · rfl
  · rw [put_of_lt hroom, map_some]
    exact congrArg (fun m => some (m, Ended.word data (len + 1))) (blit_append token len [c] [0]).symm

theorem wordLoop_full (qctokenize : Bool) (c : QByte) (data : List QByte) (token : Mem QByte) (hfull : cap - 1 ≤ len)
    (hlen : len < cap) : wordLoop cap qctokenize (c :: data) token len = some (token.blit len [0], .cut (c :: data)) := by
  rw [wordLoop, if_pos hfull, put_of_lt hlen, map_some]

/-- A word is stored up to its end, or to that of the buffer. -/
theorem wordLoop_eq (qctokenize : Bool) (c : QByte) (data : List QByte) (token : Mem QByte) (hlen : len < cap)
    (run : List QByte) (hrun : run = c :: data.takeWhile (isWordByte qctokenize)) :
    (len + run.length < cap → ∃ rest, wordLoop cap qctokenize (c :: data) token len =
      some (token.blit len (run ++ [0]), .word rest (len + run.length))) ∧
    (cap ≤ len + run.length → ∃ rest, wordLoop cap qctokenize (c :: data) token len =
      some (token.blit len (run.take (cap - 1 - len) ++ [0]), .cut rest)) := by
  induction data generalizing c token len run with
  | nil =>
    subst hrun
    rcases Nat.lt_or_ge (len + 1) cap with hroom | hfull
    · rw [wordLoop_cons qctokenize c [] token hroom]
      exact ⟨fun _ => ⟨_, rfl⟩, fun h => absurd h (Nat.not_le.mpr hroom)⟩
    · rw [wordLoop_full qctokenize c [] token (by omega) hlen, show cap - 1 - len = 0 by omega]
      exact ⟨fun h => absurd h (Nat.not_lt.mpr hfull), fun _ => ⟨_, rfl⟩⟩
  | cons d data ih =>
    have hpos : 1 ≤ run.length := by
      rw [hrun, length_cons]
      exact Nat.succ_pos _
    rcases Nat.lt_or_ge (len + 1) cap with hroom | hfull
    · rw [wordLoop_cons qctokenize c (d :: data) token hroom]
      cases hword : isWordByte qctokenize d with
      | true =>
        rw [takeWhile_cons_of_pos hword] at hrun
        have hany : (d :: data).head?.any (isWordByte qctokenize) = true := hword
        obtain ⟨hend, hcut⟩ := ih d (token.blit len [c]) hroom _ rfl
        generalize d :: data.takeWhile (isWordByte qctokenize) = rest at *
        subst hrun
        have hlength : len + (c :: rest).length = len + 1 + rest.length := by
          rw [length_cons]
          omega
        have hjoin (t : List QByte) : (token.blit len [c]).blit (len + 1) t = token.blit len (c :: t) :=
          (blit_append token len [c] t).symm
        rw [if_pos hany, hlength]
        constructor
        · intro hfit
          obtain ⟨rest', hloop⟩ := hend hfit
          rw [hjoin] at hloop
          exact ⟨rest', hloop⟩
        · intro hlong
          obtain ⟨rest', hloop⟩ := hcut hlong
          rw [hjoin] at hloop
          rw [show cap - 1 - len = cap - 1 - (len + 1) + 1 by omega, take_succ_cons]
          exact ⟨rest', hloop⟩
      | false =>
        have hnone : ¬isWordByte qctokenize d = true := by rw [hword]; exact Bool.false_ne_true
        rw [takeWhile_cons_of_neg hnone] at hrun
        have hany : ¬(d :: data).head?.any (isWordByte qctokenize) = true := hnone
        subst hrun
        rw [if_neg hany]
        exact ⟨fun _ => ⟨_, rfl⟩, fun h => absurd h (Nat.not_le.mpr hroom)⟩
    · rw [wordLoop_full qctokenize c (d :: data) token (by omega) hlen, show cap - 1 - len = 0 by omega, take_zero]
      exact ⟨fun h => absurd h (by omega), fun _ => ⟨_, rfl⟩⟩

end Inside

section Main

variable {find : List QByte → Option CString} {dpcompatConsole qctokenize : Bool} {token : Mem QByte}
  {tokenlen : BitVec 32}

/-- A token that is not a word is left as it is. -/
theorem expands_of_not_word {data : Option CString} {r : Mem QByte × Ended}
    (h : unexpanded dpcompatConsole qctokenize data token tokenlen = some r) (hword : r.2.isWord = false) :
    Expands find dpcompatConsole qctokenize data token tokenlen := by
  refine ⟨r, ?_, fun m e u hme hholds => ?_⟩
  · rw [comStringParse, h, bind_some]
    split
    · rename_i hr
      rw [hr] at hword
      cases hword
    · rfl
  · obtain rfl := some.inj (h.symm.trans hme)
    rwa [if_neg (by rw [hword]; exact Bool.false_ne_true)]

/-- The loop over a word that is not cut ends with what the word stands for. -/
theorem macroLoop_of_wordClear {cap : ℕ} {run : List QByte} {m : Mem QByte} (hcap : run.length < cap)
    (hholds : m.Holds 0 run) (hm : ∃ token' : Mem QByte, m = token'.blit 0 (run ++ [0]) ∧ WordClear cap find run token') :
    ∃ m', macroLoop cap find (cap + 1) 0 0 run.length m = some m' ∧
      ((expand find run).length < cap → m'.Holds 0 (expand find run)) := by
  obtain ⟨token', rfl, hplain | ⟨-, hexact, pre, s, value, hsingle, hstale⟩⟩ := hm
  · rw [take_of_length_le (by omega)] at hplain
    refine ⟨_, macroLoop_plain hholds hcap hplain, fun _ => ?_⟩
    rwa [hplain.expand_eq]
  · exact macroLoop_single hsingle hholds hcap hstale hexact

/-- A word is expanded, where it comes to none of the defects. -/
theorem expands_of_word {data : Option CString} {run rest : List QByte} {c : QByte} {token' : Mem QByte}
    (hrun : 0 ∉ run) (hwhole : unexpanded dpcompatConsole qctokenize data token tokenlen =
      wordLoop tokenlen.toNat qctokenize (c :: rest) token' 0)
    (heq : run = c :: rest.takeWhile (isWordByte qctokenize)) (hcap : 1 ≤ tokenlen.toNat)
    (hclear : WordClear tokenlen.toNat find run token') : Expands find dpcompatConsole qctokenize data token tokenlen := by
  obtain ⟨hend, hcut⟩ := wordLoop_eq qctokenize c rest token' hcap run heq
  rw [Nat.zero_add] at hend hcut
  rcases Nat.lt_or_ge run.length tokenlen.toNat with hfit | hlong
  · obtain ⟨data', hloop⟩ := hend hfit
    have hholds := holds_blit token' 0 hrun
    obtain ⟨m', hmacro, hexpanded⟩ := macroLoop_of_wordClear hfit hholds ⟨token', rfl, hclear⟩
    refine ⟨(m', .word data' run.length), ?_, fun m e u hme hu => ?_⟩
    · rw [comStringParse, hwhole, hloop, bind_some]
      simp only [if_pos, hmacro, map_some]
    · obtain ⟨rfl, rfl⟩ := Prod.mk.inj (some.inj ((hwhole.trans hloop).symm.trans hme))
      obtain rfl := hholds.unique hu
      exact hexpanded
  · obtain ⟨data', hloop⟩ := hcut hlong
    have hplain : Plain find (run.take (tokenlen.toNat - 1)) := by
      rcases hclear with hplain | hsingle
      · exact hplain
      · exact absurd hsingle.1 (Nat.not_lt.mpr hlong)
    have hholds := holds_blit token' 0 (s := run.take (tokenlen.toNat - 1)) fun h => hrun (mem_of_mem_take h)
    refine ⟨(token'.blit 0 (run.take (tokenlen.toNat - 1) ++ [0]), .cut data'), ?_, fun m e u hme hu => ?_⟩
    · rw [comStringParse, hwhole, hloop]
      rfl
    · obtain ⟨rfl, rfl⟩ := Prod.mk.inj (some.inj ((hwhole.trans hloop).symm.trans hme))
      obtain rfl := hholds.unique hu
      intro _
      rwa [hplain.expand_eq]

theorem skipWhite_suffix (mode : Skip) (data : List QByte) : skipWhite qctokenize mode data <:+ data := by
  induction data generalizing mode with
  | nil =>
    rw [skipWhite]
  | cons c data ih =>
    have hnext (mode : Skip) : skipWhite qctokenize mode data <:+ c :: data :=
      (ih mode).trans (suffix_cons c data)
    cases mode with
    | white =>
      rw [skipWhite]
      split_ifs
      · exact hnext .white
      · exact hnext .line
      · exact hnext .opening
      · exact suffix_refl _
    | line =>
      rw [skipWhite]
      split_ifs
      · exact suffix_refl _
      · exact hnext .line
    | opening => exact hnext .block
    | block =>
      rw [skipWhite]
      split_ifs
      · exact hnext .closing
      · exact hnext .block
    | closing => exact hnext .white

/-- A string with C escapes stays inside where it comes to no backslash at its end. -/
theorem parseEscaped_inside {cap : ℕ} {data : List QByte} {token : Mem QByte} (hzero : 0 ∉ data)
    (hquote : data.head? = some 34) (hcap : 2 ≤ cap) (hsize : cap < 2 ^ 64)
    (hclear : ∀ p n, ParseCString.Reaches data (cap - 2) p n → n < cap - 2 → ¬ParseCString.Dangles data p) :
    ∃ r, parseEscaped cap data token = some r ∧ r.2.isWord = false := by
  obtain ⟨rest, rfl⟩ := head?_eq_some_iff.mp hquote
  have hmost : (BitVec.ofNat 64 cap - 2).toNat = cap - 2 := by
    bv_omega
  have hstart : ParseCString.skipWhite (34 :: rest) 0 = some (some 0) := by
    rw [ParseCString.skipWhite, dif_pos (Nat.zero_le _)]
    rfl
  obtain ⟨r, hr, -, hlength⟩ := @ParseCString.quotedLoop_inside (34 :: rest) 1 (cap - 2) []
    (Nat.succ_le_succ (Nat.zero_le _)) (Nat.zero_le _) (.start hstart rfl) hclear
  have hparsed : ParseCString.comParseCString (some (.ofBytes (34 :: rest))) (BitVec.ofNat 64 cap) =
      some (.ended r) := by
    rw [CString.ofBytes_eq hzero]
    unfold ParseCString.comParseCString
    simp only [hstart, bind_some]
    rw [if_pos (show (34 :: rest).getD 0 0 = 34 from rfl), hmost, hr, map_some]
  have hfit : 0 + (r.2 ++ [0]).length ≤ cap := by
    rw [length_append, length_singleton]
    omega
  rw [parseEscaped, hparsed, bind_some]
  change ∃ s, ((token.puts cap 0 (r.2 ++ [0])).map _ = some s) ∧ _
  rw [puts_of_le hfit, map_some]
  refine ⟨_, rfl, ?_⟩
  change Ended.isWord (if r.1 ≤ (34 :: rest).length then .here _ else .behind) = false
  split <;> rfl

/-- **`COM_StringParse` with `expandmacros` stays in the text and in the buffer of any size, and makes of the token what it
stands for, where it comes to none of its defects.** -/
theorem comStringParse_expands (data : Option CString) (h : Clear tokenlen.toNat find qctokenize data token) :
    Expands find dpcompatConsole qctokenize data token tokenlen := by
  have hstored (hcap : 1 ≤ tokenlen.toNat) : token.put tokenlen.toNat 0 0 = some (token.store 0 0) := if_pos hcap
  cases data with
  | none =>
    refine expands_of_not_word (r := (token.store 0 0, .null)) ?_ rfl
    rw [unexpanded, hstored h, Option.bind_some]
  | some data =>
    have hzero : 0 ∉ skipWhite qctokenize .white data.1 := fun hmem => data.2 ((skipWhite_suffix _ _).subset hmem)
    have hwhole (hcap : 1 ≤ tokenlen.toNat) : unexpanded dpcompatConsole qctokenize (some data) token tokenlen =
        parseToken tokenlen.toNat dpcompatConsole qctokenize (skipWhite qctokenize .white data.1) (token.store 0 0) := by
      rw [unexpanded, hstored hcap, Option.bind_some]
    rw [Clear] at h
    cases hskip : skipWhite qctokenize .white data.1 with
    | nil =>
      rw [hskip] at h hwhole
      exact expands_of_not_word (hwhole h) rfl
    | cons c rest =>
      rw [hskip] at h hwhole hzero
      have hrest : 0 ∉ rest := List.not_mem_of_not_mem_cons hzero
      have hinside (hcap : 1 ≤ tokenlen.toNat)
          (hr : ∃ r, parseToken tokenlen.toNat dpcompatConsole qctokenize (c :: rest) (token.store 0 0) = some r ∧
            r.2.isWord = false) : Expands find dpcompatConsole qctokenize (some data) token tokenlen := by
        obtain ⟨r, hr, hword⟩ := hr
        exact expands_of_not_word ((hwhole hcap).trans hr) hword
      rw [TokenClear] at h
      rw [parseToken] at hwhole hinside
      have hmark (hcap : 2 ≤ tokenlen.toNat) : (token.store 0 0).puts tokenlen.toNat 0 [c, 0] =
          some ((token.store 0 0).blit 0 [c, 0]) :=
        puts_of_le (show 0 + [c, 0].length ≤ tokenlen.toNat from hcap) _
      by_cases hnewline : c = 10
      · rw [if_pos hnewline] at h hinside
        exact hinside (Nat.le_of_succ_le h) ⟨_, by rw [hmark h, Option.map_some], rfl⟩
      rw [if_neg hnewline] at h hwhole hinside
      by_cases hescaped : c = 92 ∧ rest.head? = some 34
      · rw [if_pos hescaped] at h hinside
        have hsize : tokenlen.toNat < 2 ^ 64 := by have := tokenlen.isLt; omega
        exact hinside (Nat.le_of_succ_le h.1) (parseEscaped_inside hrest hescaped.2 h.1 hsize h.2)
      rw [if_neg hescaped] at h hwhole hinside
      by_cases hquote : c = 34
      · rw [if_pos hquote] at h hinside
        exact hinside h (quotedLoop_inside _ false rest _ h)
      rw [if_neg hquote] at h hwhole hinside
      by_cases hsingle : c = 39 ∧ qctokenize = true
      · rw [if_pos hsingle] at h hinside
        refine hinside h.1 (singleLoop_inside _ h.1 ?_)
        rw [Nat.zero_add]
        exact h.2
      rw [if_neg hsingle] at h hwhole hinside
      by_cases hmarked : qctokenize = true ∧ isMark c = true
      · rw [if_pos hmarked] at h hinside
        exact hinside (Nat.le_of_succ_le h) ⟨_, by rw [hmark h, Option.map_some], rfl⟩
      · rw [if_neg hmarked] at h hwhole
        have hrun : 0 ∉ c :: rest.takeWhile (isWordByte qctokenize) := fun hmem =>
          hzero (List.cons_subset_cons c (List.takeWhile_prefix _).subset hmem)
        exact expands_of_word hrun (hwhole h.1) rfl h.1 h.2

/-- Two cvars, `a` with the string `xy` and `b` with `z`. -/
def twoCvars (name : List QByte) : Option CString :=
  if name = [97] then some ⟨[120, 121], by decide⟩ else if name = [98] then some ⟨[122], by decide⟩ else none

/-- `$a` becomes `xy`. -/
theorem comStringParse_expands_name :
    Expands twoCvars false true (some ⟨[32, 36, 97], by decide⟩) (fun _ => 0) 16 := by
  have hsingle : Single twoCvars [36, 97] [] [97] ⟨[120, 121], by decide⟩ := ⟨rfl, trivial, rfl, trivial⟩
  have hexpand : expand twoCvars [36, 97] = [120, 121] := hsingle.expand_eq
  have hlength : (expand twoCvars [36, 97]).length = 2 := by rw [hexpand]; rfl
  have hexact : (expand twoCvars [36, 97]).length + 1 ≠ 16 := by rw [hlength]; decide
  refine comStringParse_expands _ ⟨by decide, .inr ⟨by decide, hexact, [], [97], _, hsingle, fun _ j hj hlt => ?_⟩⟩
  have hfirst : 2 < j := lt_of_eq_of_lt hlength.symm hj
  have hlast : j < 2 + 2 := lt_of_lt_of_eq hlt (congrArg (· + 2) hlength)
  obtain rfl : j = 3 := by omega
  exact ⟨by decide, by decide⟩

/-- `$a$b` stands for `xyz`, but becomes `xy$b`. -/
theorem comStringParse_not_expands :
    ¬Expands twoCvars false true (some ⟨[36, 97, 36, 98], by decide⟩) (fun _ => 0) 16 := by
  rintro ⟨r, hr, h⟩
  have hexpand : expand twoCvars [36, 97, 36, 98] = [120, 121, 122] := by
    rw [expand_name rfl]
    exact congrArg ([120, 121] ++ ·) ((expand_name rfl).trans (congrArg ([122] ++ ·) (Plain.expand_eq trivial)))
  have hraw : unexpanded false true (some ⟨[36, 97, 36, 98], by decide⟩) (fun _ => 0) 16 = some (_, .word [] 4) := rfl
  have hholds := h _ _ [36, 97, 36, 98] hraw ⟨by decide, rfl⟩
  rw [if_pos (show (Ended.word [] 4).isWord = true from rfl), hexpand] at hholds
  have hlast := (hholds (by decide)).apply_of_lt (i := 2) (by decide)
  have hdollar : (comStringParse twoCvars false (some ⟨[36, 97, 36, 98], by decide⟩) (fun _ => 0) 16 true true).map
      (fun r => r.1 2) = some 36 := by decide +kernel
  rw [hr] at hdollar
  exact absurd (hlast.symm.trans (Option.some.inj hdollar)) (by decide)

end Main

end StringParse

end FteQuake
