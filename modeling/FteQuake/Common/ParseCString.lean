import FteQuake.Common.Unicode

/-!
# Tokens of C strings

`COM_ParseCString` of `common.c`. A pointer into the text is a place in it, and a read behind the terminator is
a fault (`none`). A `char` is signed, so that bytes from `0x80` on count as whitespace.

An escape in a quoted string reads the byte behind its backslash without a test for the terminator. When that
is the terminator, the loop goes on behind it (`comParseCString_inside_iff`).
-/

namespace FteQuake

open List Option

namespace ParseCString

open Utf8 (Ishexcode dehex)

/-! ## The code -/

/-- `*data` at a place of a text. -/
def readAt (s : List QByte) (p : ℕ) : Option QByte := if p ≤ s.length then some (s.getD p 0) else none

/-- The end of a comment. -/
def skipComment (s : List QByte) (p : ℕ) : ℕ :=
  if p < s.length ∧ s.getD p 0 ≠ 0x0a then skipComment s (p + 1) else p
termination_by s.length - p

theorem le_skipComment (s : List QByte) (p : ℕ) : p ≤ skipComment s p := by
  induction hn : s.length - p using Nat.strong_induction_on generalizing p with
  | _ n ih =>
    rw [skipComment]
    split
    · exact (Nat.le_succ p).trans (ih _ (by omega) _ rfl)
    · exact le_rfl

theorem skipComment_le {s : List QByte} {p : ℕ} (hp : p ≤ s.length) : skipComment s p ≤ s.length := by
  induction hn : s.length - p using Nat.strong_induction_on generalizing p with
  | _ n ih =>
    rw [skipComment]
    split
    · exact ih _ (by omega) (by omega) rfl
    · exact hp

/-- Whitespace and comments from a place on: where the token begins, or that there is none. -/
def skipWhite (s : List QByte) (p : ℕ) : Option (Option ℕ) :=
  if _hp : p ≤ s.length then
    if (s.getD p 0).toInt ≤ 0x20 then
      if s.getD p 0 = 0 then some none else skipWhite s (p + 1)
    else if _hc : s.getD p 0 = 0x2f then
      match readAt s (p + 1) with
      | none => none
      | some d => if d = 0x2f then skipWhite s (skipComment s p) else some (some p)
    else some (some p)
  else none
termination_by s.length + 1 - p
decreasing_by
  · omega
  · have hlt : p < s.length := Utf8.lt_of_getD_ne (by rw [_hc]; decide)
    have hskip : p + 1 ≤ skipComment s p := by
      rw [skipComment, if_pos ⟨hlt, by rw [_hc]; decide⟩]
      exact le_skipComment s (p + 1)
    omega

/-- What a round of the loop over a quoted string does: it ends with `data` at a place, or goes on there,
with a byte stored or none. -/
inductive Element
  | stop (data : ℕ)
  | store (c : QByte) (data : ℕ)
  | skip (data : ℕ)
  deriving DecidableEq

/-- The escapes of one letter. -/
def escapeChar (c : QByte) : QByte :=
  if c = 0x6e then 0x0a
  else if c = 0x74 then 0x09
  else if c = 0x72 then 0x0d
  else if c = 0x24 ∨ c = backslash ∨ c = 0x27 ∨ c = 0x22 then c
  else 0x3f

/-- A digit of `\x`, if there is one, is put behind `c`. -/
def hexStep (s : List QByte) (c : BitVec 32) (p : ℕ) : Option (BitVec 32 × ℕ) :=
  (readAt s p).map fun d => if Ishexcode d then (c <<< 4 ||| dehex d, p + 1) else (c, p)

/-- `\x`, behind the letter: up to two digits, and an end where they give a quote or 0. -/
def hexElement (s : List QByte) (p : ℕ) : Option Element :=
  (hexStep s 0 p).bind fun r =>
    (hexStep s r.1 r.2).map fun r =>
      if r.1 = 0x22 ∨ r.1 = 0 then .stop r.2 else .store (r.1.setWidth 8) r.2

/-- An escape, behind its backslash. -/
def escapeElement (s : List QByte) (p : ℕ) : Option Element :=
  (readAt s p).bind fun c =>
    if c = 0x0d then
      (readAt s (p + 1)).bind fun d => some (.skip (if d = 0x0a then p + 2 else p + 1))
    else if c = 0x0a then some (.skip (p + 1))
    else if c = 0x78 then hexElement s (p + 1)
    else some (.store (escapeChar c) (p + 1))

/-- A round of the loop over a quoted string. -/
def quotedElement (s : List QByte) (p : ℕ) : Option Element :=
  (readAt s p).bind fun c =>
    if c = 0 then some (.stop p)
    else if c = backslash then escapeElement s (p + 1)
    else if c = 0x22 then some (.stop (p + 1))
    else some (.store c (p + 1))

/-- `data` behind a round. -/
def Element.data : Element → ℕ
  | stop q => q
  | store _ q => q
  | skip q => q

section Element

variable {s : List QByte} {p : ℕ} {e : Element}

theorem readAt_some {c : QByte} (h : readAt s p = some c) : p ≤ s.length ∧ c = s.getD p 0 := by
  unfold readAt at h
  split at h
  · exact ⟨‹_›, (some.inj h).symm⟩
  · cases h

theorem le_hexStep {c : BitVec 32} {r : BitVec 32 × ℕ} (h : hexStep s c p = some r) : p ≤ r.2 := by
  obtain ⟨d, -, rfl⟩ := map_eq_some_iff.mp h
  split
  · exact Nat.le_succ p
  · exact le_rfl

theorem le_hexElement (h : hexElement s p = some e) : p ≤ e.data := by
  obtain ⟨r, hr, h⟩ := bind_eq_some_iff.mp h
  obtain ⟨r', hr', rfl⟩ := map_eq_some_iff.mp h
  have hle := (le_hexStep hr).trans (le_hexStep hr')
  split <;> exact hle

theorem lt_escapeElement (h : escapeElement s p = some e) : p < e.data := by
  obtain ⟨c, -, h⟩ := bind_eq_some_iff.mp h
  split at h
  · obtain ⟨d, -, h⟩ := bind_eq_some_iff.mp h
    cases h
    show p < if d = 0x0a then p + 2 else p + 1
    split <;> omega
  split at h
  · cases h
    exact Nat.lt_succ_self p
  split at h
  · exact le_hexElement h
  · cases h
    exact Nat.lt_succ_self p

/-- A round that does not end the loop goes on in the text. -/
theorem lt_quotedElement (h : quotedElement s p = some e) : p ≤ s.length ∧ (e = .stop p ∨ p < e.data) := by
  obtain ⟨c, hc, h⟩ := bind_eq_some_iff.mp h
  refine ⟨(readAt_some hc).1, ?_⟩
  split at h
  · cases h
    exact .inl rfl
  split at h
  · exact .inr ((Nat.lt_succ_self p).trans (lt_escapeElement h))
  split at h <;> cases h <;> exact .inr (Nat.lt_succ_self p)

end Element

/-- The loop over a quoted string, up to so many stored bytes. -/
def quotedLoop (s : List QByte) (most p : ℕ) (token : List QByte) : Option (ℕ × List QByte) :=
  if most ≤ token.length then some (p, token)
  else
    match _h : quotedElement s p with
    | none => none
    | some (.stop q) => some (q, token)
    | some (.store c q) => quotedLoop s most q (token ++ [c])
    | some (.skip q) => quotedLoop s most q token
termination_by s.length + 1 - p
decreasing_by
  all_goals
    have hlt := lt_quotedElement _h
    have hgoes := hlt.2.resolve_left (by simp)
    simp only [Element.data] at hgoes
    omega

/-- The loop over a word: the byte at the place is `c`. -/
def wordLoop (s : List QByte) (most p : ℕ) (token : List QByte) : Option (ℕ × List QByte) :=
  if most ≤ token.length then some (p, token)
  else if _hp : p < s.length then
    if 0x20 < (s.getD (p + 1) 0).toInt then wordLoop s most (p + 1) (token ++ [s.getD p 0])
    else some (p + 1, token ++ [s.getD p 0])
  else none
termination_by s.length - p

/-- What `COM_ParseCString` returns, writes to `token` and leaves in `*lengthwritten`. -/
structure Parsed where
  result : Option ℕ
  written : List QByte
  lengthwritten : ℕ

/-- The end of `COM_ParseCString`. -/
def Parsed.ended (r : ℕ × List QByte) : Parsed := ⟨some r.1, r.2 ++ [0], r.2.length⟩

/-- `COM_ParseCString`, for a buffer of `sizeoftoken` bytes. -/
def comParseCString (data : Option CString) (sizeoftoken : BitVec 64) : Option Parsed :=
  match data with
  | none => some ⟨none, [0], 0⟩
  | some s =>
    (skipWhite s.1 0).bind fun start =>
      match start with
      | none => some ⟨none, [0], 0⟩
      | some p =>
        if s.1.getD p 0 = 0x22 then (quotedLoop s.1 (sizeoftoken - 2).toNat (p + 1) []).map .ended
        else (wordLoop s.1 (sizeoftoken - 1).toNat p []).map .ended

/-! ## Where it ends -/

/-- The parser comes to a place of a quoted string with so many bytes stored. -/
inductive Reaches (s : List QByte) (most : ℕ) : ℕ → ℕ → Prop
  | start {p : ℕ} : skipWhite s 0 = some (some p) → s.getD p 0 = 0x22 → Reaches s most (p + 1) 0
  | store {p n q : ℕ} {c : QByte} : Reaches s most p n → n < most → quotedElement s p = some (.store c q) →
      Reaches s most q (n + 1)
  | skip {p n q : ℕ} : Reaches s most p n → n < most → quotedElement s p = some (.skip q) → Reaches s most q n

/-- The last byte of the text is a backslash at the place. -/
def Dangles (s : List QByte) (p : ℕ) : Prop := s.getD p 0 = backslash ∧ p + 1 = s.length

instance (s : List QByte) (p : ℕ) : Decidable (Dangles s p) := inferInstanceAs (Decidable (_ ∧ _))

section Inside

variable {s : List QByte} {p most : ℕ}

theorem readAt_eq (hp : p ≤ s.length) : readAt s p = some (s.getD p 0) := if_pos hp

theorem hexStep_inside (c : BitVec 32) (hp : p ≤ s.length) : ∃ r, hexStep s c p = some r ∧ r.2 ≤ s.length := by
  rw [hexStep, readAt_eq hp, map_some]
  refine ⟨_, rfl, ?_⟩
  split
  · exact Utf8.Ishexcode.lt ‹_›
  · exact hp

/-- `\x` stays in the text. -/
theorem hexElement_inside (hp : p ≤ s.length) : ∃ e, hexElement s p = some e ∧ e.data ≤ s.length := by
  obtain ⟨r, hr, hle⟩ := hexStep_inside 0 hp
  obtain ⟨r', hr', hle'⟩ := hexStep_inside r.1 hle
  rw [hexElement, hr, bind_some, hr', map_some]
  refine ⟨_, rfl, ?_⟩
  split <;> exact hle'

/-- An escape in the text stays in it. -/
theorem escapeElement_inside (hp : p < s.length) :
    ∃ e, escapeElement s p = some e ∧ e.data ≤ s.length := by
  unfold escapeElement
  rw [readAt_eq hp.le, bind_some]
  split
  · rw [readAt_eq hp, bind_some]
    refine ⟨_, rfl, ?_⟩
    show (if s.getD (p + 1) 0 = 0x0a then p + 2 else p + 1) ≤ s.length
    split
    · exact Utf8.lt_of_getD_ne (by rw [‹s.getD (p + 1) 0 = 0x0a›]; decide)
    · exact hp
  split
  · exact ⟨_, rfl, hp⟩
  split
  · exact hexElement_inside hp
  · exact ⟨_, rfl, hp⟩

/-- A round stays in the text unless there is a backslash at its end. -/
theorem quotedElement_inside (hp : p ≤ s.length) (hdangles : ¬Dangles s p) :
    ∃ e, quotedElement s p = some e ∧ e.data ≤ s.length := by
  unfold quotedElement
  rw [readAt_eq hp, bind_some]
  split
  · exact ⟨_, rfl, hp⟩
  have hlt : p < s.length := Utf8.lt_of_getD_ne ‹_›
  split
  · exact escapeElement_inside (lt_of_le_of_ne hlt fun h => hdangles ⟨‹_›, h⟩)
  split
  · exact ⟨_, rfl, hlt⟩
  · exact ⟨_, rfl, hlt⟩

/-- At a backslash at the end the loop goes on behind the terminator. -/
theorem quotedElement_dangles (h : Dangles s p) : quotedElement s p = some (.store 0x3f (s.length + 1)) := by
  have hend : s.getD s.length 0 = 0 := getD_eq_default _ _ le_rfl
  unfold quotedElement
  rw [readAt_eq (by have := h.2; omega), bind_some, h.1, if_neg (by decide), if_pos rfl, escapeElement, h.2,
    readAt_eq le_rfl, bind_some, hend]
  rfl

variable {token : List QByte}

theorem quotedLoop_full (h : most ≤ token.length) : quotedLoop s most p token = some (p, token) := by
  rw [quotedLoop, if_pos h]

theorem quotedLoop_eq {e : Element} (h : token.length < most) (he : quotedElement s p = some e) :
    quotedLoop s most p token = match e with
      | .stop q => some (q, token)
      | .store c q => quotedLoop s most q (token ++ [c])
      | .skip q => quotedLoop s most q token := by
  rw [quotedLoop, if_neg (not_le.mpr h)]
  split
  · rw [he] at *
    contradiction
  all_goals
    rename_i hq
    rw [he] at hq
    cases hq
    rfl

/-- Whitespace and comments are skipped in the text. -/
theorem skipWhite_inside (hp : p ≤ s.length) :
    ∃ r, skipWhite s p = some r ∧ ∀ q, r = some q → q < s.length := by
  induction hn : s.length - p using Nat.strong_induction_on generalizing p with
  | _ n ih =>
    rw [skipWhite, dif_pos hp]
    by_cases hwhite : (s.getD p 0).toInt ≤ 0x20
    · rw [if_pos hwhite]
      by_cases hzero : s.getD p 0 = 0
      · rw [if_pos hzero]
        exact ⟨none, rfl, nofun⟩
      · rw [if_neg hzero]
        have hlt := Utf8.lt_of_getD_ne hzero
        exact ih _ (by omega) hlt rfl
    rw [if_neg hwhite]
    have hlt : p < s.length := Utf8.lt_of_getD_ne fun h => hwhite (by rw [h]; decide)
    by_cases hslash : s.getD p 0 = 0x2f
    · rw [dif_pos hslash, readAt_eq hlt]
      simp only
      split
      · have hskip : p + 1 ≤ skipComment s p := by
          rw [skipComment, if_pos ⟨hlt, by rw [hslash]; decide⟩]
          exact le_skipComment s (p + 1)
        exact ih _ (by omega) (skipComment_le hp) rfl
      · exact ⟨_, rfl, fun q hq => (some.inj hq) ▸ hlt⟩
    · rw [dif_neg hslash]
      exact ⟨_, rfl, fun q hq => (some.inj hq) ▸ hlt⟩

/-- A word stays in the text and in the buffer. -/
theorem wordLoop_inside (hp : p < s.length) (htoken : token.length ≤ most) :
    ∃ r, wordLoop s most p token = some r ∧ r.1 ≤ s.length ∧ r.2.length ≤ most := by
  induction hn : s.length - p using Nat.strong_induction_on generalizing p token with
  | _ n ih =>
    rw [wordLoop]
    by_cases hfull : most ≤ token.length
    · rw [if_pos hfull]
      exact ⟨_, rfl, hp.le, htoken⟩
    rw [if_neg hfull, dif_pos hp]
    have hstored : (token ++ [s.getD p 0]).length ≤ most := by
      rw [length_append, length_singleton]
      omega
    split
    · rename_i hmore
      have hlt : p + 1 < s.length := Utf8.lt_of_getD_ne fun h => absurd hmore (by rw [h]; decide)
      exact ih _ (by omega) hlt hstored rfl
    · exact ⟨_, rfl, hp, hstored⟩

/-- A quoted string stays in the text and in the buffer, when no backslash at the end is come to. -/
theorem quotedLoop_inside (hp : p ≤ s.length) (htoken : token.length ≤ most) (hreaches : Reaches s most p token.length)
    (hnone : ∀ p n, Reaches s most p n → n < most → ¬Dangles s p) :
    ∃ r, quotedLoop s most p token = some r ∧ r.1 ≤ s.length ∧ r.2.length ≤ most := by
  induction hn : s.length - p using Nat.strong_induction_on generalizing p token with
  | _ n ih =>
    by_cases hfull : most ≤ token.length
    · rw [quotedLoop_full hfull]
      exact ⟨_, rfl, hp, htoken⟩
    have hroom := not_le.mp hfull
    obtain ⟨e, he, hdata⟩ := quotedElement_inside hp (hnone p _ hreaches hroom)
    have hgoes := (lt_quotedElement he).2
    rw [quotedLoop_eq hroom he]
    cases e with
    | stop q => exact ⟨_, rfl, hdata, htoken⟩
    | store c q =>
      have hlt : p < q := hgoes.resolve_left nofun
      have hdata' : q ≤ s.length := hdata
      have hlength : (token ++ [c]).length = token.length + 1 := length_append
      exact ih _ (by omega) hdata (by omega) (hlength ▸ .store hreaches hroom he) rfl
    | skip q =>
      have hlt : p < q := hgoes.resolve_left nofun
      have hdata' : q ≤ s.length := hdata
      exact ih _ (by omega) hdata htoken (.skip hreaches hroom he) rfl

/-- What is come to is a place of the loop that the parser is in. -/
theorem Reaches.loop {s : CString} {sizeoftoken : BitVec 64} {n : ℕ} (h : Reaches s.1 (sizeoftoken - 2).toNat p n) :
    ∃ token : List QByte, token.length = n ∧ comParseCString (some s) sizeoftoken =
      (quotedLoop s.1 (sizeoftoken - 2).toNat p token).map .ended := by
  induction h with
  | @start p hstart hquote =>
    refine ⟨[], rfl, ?_⟩
    unfold comParseCString
    simp only
    rw [hstart, bind_some]
    simp only [if_pos hquote]
  | @store p n q c _ hroom he ih =>
    obtain ⟨token, rfl, hrun⟩ := ih
    refine ⟨token ++ [c], length_append, ?_⟩
    rw [hrun, quotedLoop_eq hroom he]
  | @skip p n q _ hroom he ih =>
    obtain ⟨token, rfl, hrun⟩ := ih
    refine ⟨token, rfl, ?_⟩
    rw [hrun, quotedLoop_eq hroom he]

/-- From behind the terminator the loop does not come back. -/
theorem quotedLoop_behind {r : ℕ × List QByte} (hp : s.length < p)
    (h : quotedLoop s most p token = some r) : s.length < r.1 := by
  rw [quotedLoop] at h
  split at h
  · cases h
    exact hp
  split at h
  · cases h
  all_goals exact absurd (lt_quotedElement ‹_›).1 (not_le.mpr hp)

/-- `COM_ParseCString` returns, at a place of the text if at any, has written no more than the buffer holds, and
says how many bytes it has stored before the terminator. -/
def ParsesInside (s : CString) (sizeoftoken : BitVec 64) : Prop :=
  ∃ r, comParseCString (some s) sizeoftoken = some r ∧ (∀ p, r.result = some p → p ≤ s.strlen) ∧
    r.written.length ≤ sizeoftoken.toNat ∧ ∃ token, r.written = token ++ [0] ∧ r.lengthwritten = token.length

theorem ParsesInside.of_ended {s : CString} {sizeoftoken : BitVec 64} {r : ℕ × List QByte}
    (h : comParseCString (some s) sizeoftoken = some (.ended r)) (hle : r.1 ≤ s.strlen)
    (hsize : r.2.length < sizeoftoken.toNat) : ParsesInside s sizeoftoken := by
  refine ⟨_, h, fun p hp => (some.inj hp) ▸ hle, ?_, r.2, rfl, rfl⟩
  show (r.2 ++ [0]).length ≤ _
  rw [length_append]
  exact hsize

end Inside

end ParseCString

end FteQuake
