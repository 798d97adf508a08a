import FteQuake.Lib.Numerals
import FteQuake.Common.Json
import FteQuake.Common.Utf8

/-!
# Bodies of JSON strings

`JSON_ReadBody` of `json.c`. A node's body is given by its bytes and those of the text behind it. The body of
a string that is valid is a list of units (`BodyUnit`): raw bytes, simple escapes, `\u` escapes and
pairs of them for the characters behind the first 65536; the text that it stands for is encoded by Lean's
own `String.utf8EncodeChar`.

An escape for which the buffer has no room is left out, and what comes behind it is written when it is
small enough, so that the result is a prefix of the text only when what is written there repeats
the text (`jsonReadBody_prefix_iff`).
-/

namespace FteQuake

open List Nat
open BitVec (eq_of_toNat_eq le_def toNat_ofNat)

namespace JsonBody

open Utf8

/-! ## The code -/

/-- `dehex` of `json.c`, which adds a digit to `*ret`; `none` when it returns 0. -/
def dehex (chr : QByte) (ret : BitVec 32) (shift : ℕ) : Option (BitVec 32) :=
  if 0x30 ≤ chr ∧ chr ≤ 0x39 then some (ret ||| (chr.setWidth 32 - 0x30) <<< shift)
  else if 0x41 ≤ chr ∧ chr ≤ 0x46 then some (ret ||| (chr.setWidth 32 - 0x41 + 10) <<< shift)
  else if 0x61 ≤ chr ∧ chr ≤ 0x66 then some (ret ||| (chr.setWidth 32 - 0x61 + 10) <<< shift)
  else none

/-- Four digits. -/
def dehexFour (s : List QByte) : Option (BitVec 32) :=
  (dehex (s.getD 0 0) 0 12).bind fun code =>
    (dehex (s.getD 1 0) code 8).bind fun code =>
      (dehex (s.getD 2 0) code 4).bind fun code => dehex (s.getD 3 0) code 0

/-- The digits of `\u`, and a low surrogate behind them: the code and how many bytes it takes. -/
def escapeCode (s : List QByte) : Option (BitVec 32 × ℕ) :=
  (dehexFour s).map fun code =>
    if 0xd800 ≤ code ∧ code < 0xdc00 ∧ s.getD 4 0 = backslash ∧ s.getD 5 0 = 0x75 then
      match dehexFour (s.drop 6) with
      | some low =>
        if 0xdc00 ≤ low ∧ low < 0xe000 then (0x10000 + (code - 0xd800) * 0x400 + (low - 0xdc00), 10)
        else (code, 4)
      | none => (code, 4)
    else (code, 4)

/-- The escapes of one letter. -/
def simpleEscape (c : QByte) : Option QByte :=
  if c = 0x22 then some 0x22
  else if c = 0x5c then some 0x5c
  else if c = 0x2f then some 0x2f
  else if c = 0x62 then some 0x08
  else if c = 0x66 then some 0x0c
  else if c = 0x6e then some 0x0a
  else if c = 0x72 then some 0x0d
  else if c = 0x74 then some 0x09
  else none

/-- The loop of `JSON_ReadBody`: `in` is at the text `s`, of which `n` bytes are of the body, and `room` is
`outend - out`, which becomes an `int` for `utf8_encode` (no code here needs more than six rounds of
its loop). It gives what is written. -/
def readBodyLoop (s : List QByte) (n room : ℕ) : Option (List QByte) :=
  if 0 < n ∧ 0 < room then
    if s.getD 0 0 ≠ backslash then
      (readBodyLoop (s.drop 1) (n - 1) (room - 1)).map (s.getD 0 0 :: ·)
    else if n = 1 then some [backslash]
    else
      let c := s.getD 1 0
      match simpleEscape c with
      | some b => (readBodyLoop (s.drop 2) (n - 2) (room - 1)).map (b :: ·)
      | none =>
        match if c = 0x75 then escapeCode (s.drop 2) else none with
        | some r =>
          match utf8Encode 6 r.1 (BitVec.ofNat 32 room) with
          | some w => (readBodyLoop (s.drop (2 + r.2)) (n - (2 + r.2)) (room - w.1)).map (w.2 ++ ·)
          | none => none
        | none =>
          if room = 1 then (readBodyLoop (s.drop 2) (n - 2) 0).map (backslash :: ·)
          else (readBodyLoop (s.drop 2) (n - 2) (room - 2)).map ([backslash, c] ++ ·)
  else some []
termination_by n

/-- `JSON_ReadBody` for a node with this body and text behind it, or none, and a buffer of `outsize` bytes, or
none: the result, and what is written. -/
def jsonReadBody (t : Option (List QByte × List QByte)) (outsize : Option ℕ) : Option (ℕ × List QByte) :=
  match t with
  | none => some (0, if outsize.isSome then [0] else [])
  | some t =>
    if outsize.getD 0 = 0 then some (t.1.length, [])
    else
      (readBodyLoop (t.1 ++ t.2) t.1.length (outsize.getD 0 - 1)).map fun w => (t.1.length, w ++ [0])

/-! ## The text of a body -/

/-- A character in UTF-8. -/
def utf8 (c : ℕ) : List QByte := (String.utf8EncodeChar (Char.ofNat c)).map fun b => b.toBitVec

/-- The escapes of one letter, and the characters they stand for. -/
def simpleEscapes : List (QByte × QByte) :=
  [(0x22, 0x22), (0x5c, 0x5c), (0x2f, 0x2f), (0x62, 0x08), (0x66, 0x0c), (0x6e, 0x0a), (0x72, 0x0d), (0x74, 0x09)]

/-- Four hexadecimal digits. -/
structure HexQuad where
  digits : Fin 4 → QByte
  hex : ∀ k, ('0'.toNat ≤ (digits k).toNat ∧ (digits k).toNat ≤ '9'.toNat) ∨
    ('A'.toNat ≤ (digits k).toNat ∧ (digits k).toNat ≤ 'F'.toNat) ∨
    ('a'.toNat ≤ (digits k).toNat ∧ (digits k).toNat ≤ 'f'.toNat)

/-- The value of a hexadecimal digit. -/
def hexValue (d : QByte) : ℕ :=
  if d.toNat ≤ '9'.toNat then d.toNat - '0'.toNat
  else if d.toNat ≤ 'F'.toNat then d.toNat - 'A'.toNat + 10
  else d.toNat - 'a'.toNat + 10

def HexQuad.value (q : HexQuad) : ℕ :=
  ((hexValue (q.digits 0) * 16 + hexValue (q.digits 1)) * 16 + hexValue (q.digits 2)) * 16 + hexValue (q.digits 3)

def HexQuad.text (q : HexQuad) : List QByte := List.ofFn q.digits

/-- A part of the body of a valid string: a byte of a raw character, a simple escape, an escape of a character
that is no surrogate and not 0, or a pair of surrogates. -/
inductive BodyUnit
  | raw (b : QByte) (h : b ≠ backslash)
  | simple (e : QByte × QByte) (h : e ∈ simpleEscapes)
  | code (q : HexQuad) (h : 0 < q.value ∧ (q.value < 0xd800 ∨ 0xe000 ≤ q.value))
  | pair (high low : HexQuad) (hhigh : 0xd800 ≤ high.value ∧ high.value < 0xdc00)
      (hlow : 0xdc00 ≤ low.value ∧ low.value < 0xe000)

namespace BodyUnit

/-- How a unit is written. -/
def text : BodyUnit → List QByte
  | raw b _ => [b]
  | simple e _ => [backslash, e.1]
  | code q _ => [backslash, 0x75] ++ q.text
  | pair high low _ _ => [backslash, 0x75] ++ high.text ++ [backslash, 0x75] ++ low.text

/-- What a unit stands for. -/
def decoded : BodyUnit → List QByte
  | raw b _ => [b]
  | simple e _ => [e.2]
  | code q _ => utf8 q.value
  | pair high low _ _ => utf8 (0x10000 + (high.value - 0xd800) * 0x400 + (low.value - 0xdc00))

/-- There is room for a unit, as the code tests it. -/
def Fits (room : ℕ) : BodyUnit → Prop
  | raw _ _ => True
  | simple _ _ => True
  | code q h => (code q h).decoded.length ≤ room % 2 ^ 32
  | pair high low hhigh hlow => (pair high low hhigh hlow).decoded.length ≤ room % 2 ^ 32

instance (room : ℕ) : (u : BodyUnit) → Decidable (u.Fits room)
  | raw _ _ => inferInstanceAs (Decidable True)
  | simple _ _ => inferInstanceAs (Decidable True)
  | code _ _ => inferInstanceAs (Decidable (_ ≤ _))
  | pair _ _ _ _ => inferInstanceAs (Decidable (_ ≤ _))

end BodyUnit

/-- How a body is written. -/
def bodyText (us : List BodyUnit) : List QByte := us.flatMap BodyUnit.text

/-- The text that a body stands for. -/
def bodyDecoded (us : List BodyUnit) : List QByte := us.flatMap BodyUnit.decoded

/-- What has room of the units is a prefix of a text, until the buffer is full. -/
def Repeats : List BodyUnit → ℕ → List QByte → Prop
  | [], _, _ => True
  | u :: us, room, text =>
    if room = 0 then True
    else if u.Fits room then
      u.decoded <+: text ∧ Repeats us (room - u.decoded.length) (text.drop u.decoded.length)
    else Repeats us room text

/-- The condition of `JSON_ReadBody`: the first unit for which there is no room comes where the buffer is
full, or where it is too small for the rest of the text and what has room behind the unit repeats it. -/
def NoneLost : List BodyUnit → ℕ → Prop
  | [], _ => True
  | u :: us, room =>
    if room = 0 then True
    else if u.Fits room then NoneLost us (room - u.decoded.length)
    else room < (bodyDecoded (u :: us)).length ∧ Repeats us room (bodyDecoded (u :: us))

section Encoding

variable {v n : ℕ}

theorem toNat_ofNat_char (h : v.isValidChar) : (Char.ofNat v).val.toNat = v := by
  rw [Char.ofNat, dif_pos h]
  rfl

/-- A byte behind the first one. -/
theorem encodeTail_succ (hv : v < 2 ^ 32) :
    encodeTail (BitVec.ofNat 32 v) (n + 1) =
      BitVec.ofNat 8 (v / 2 ^ (6 * n) % 64 + 0x80) :: encodeTail (BitVec.ofNat 32 v) n := by
  have hbyte := toNat_encodeTail (BitVec.ofNat 32 v) [] (succ_pos n)
  rw [encodeTail] at hbyte ⊢
  rw [append_nil, getD_cons_zero, Nat.succ_sub_one, Nat.sub_zero, toNat_ofNat, Nat.mod_eq_of_lt hv] at hbyte
  refine congrArg (· :: _) (eq_of_toNat_eq ?_)
  rw [hbyte, toNat_ofNat]
  omega

/-- The first byte of several. -/
theorem encodeBytes_succ {m q : ℕ} (hv : v < 2 ^ 32) (hn : 0 < n) (hmask : (0x7f#32 >>> (n + 1)).toNat = 2 ^ m - 1)
    (hm : m ≤ 8) (hmark : (((0xffffff00#32 >>> (n + 1)) &&& 0xff).setWidth 8 : QByte).toNat = q * 2 ^ m) :
    encodeBytes (BitVec.ofNat 32 v) (n + 1) =
      BitVec.ofNat 8 (v / 2 ^ (6 * n) % 2 ^ m + q * 2 ^ m) :: encodeTail (BitVec.ofNat 32 v) n := by
  have hlead := toNat_lead hmask hm hmark (BitVec.ofNat 32 v >>> (6 * n))
  rw [toNat_shift, toNat_ofNat, Nat.mod_eq_of_lt hv] at hlead
  rw [encodeBytes, if_neg (by omega), Nat.add_sub_cancel]
  refine congrArg (· :: _) (eq_of_toNat_eq ?_)
  have hlt := BitVec.isLt (((BitVec.ofNat 32 v >>> (6 * n)) &&& (0x7f#32 >>> (n + 1))).setWidth 8 |||
    ((0xffffff00#32 >>> (n + 1)) &&& 0xff).setWidth 8 : QByte)
  rw [hlead] at hlt
  rw [hlead, toNat_ofNat]
  omega

/-- The bytes of `utf8_encode` are the UTF-8 of the character. -/
theorem encodeBytes_eq (hpos : 0 < v) (h : v.isValidChar) :
    encodeBytes (BitVec.ofNat 32 v) (byteCount v) = utf8 v := by
  have hmax : v < 0x110000 := by
    rcases h with h | h <;> omega
  have hv : v < 2 ^ 32 := by omega
  unfold utf8 String.utf8EncodeChar byteCount
  simp only [toNat_ofNat_char h, if_neg hpos.ne']
  by_cases h₁ : v < 2 ^ 7
  · rw [if_pos h₁, if_pos (show v ≤ 0x7f by omega), encodeBytes, if_pos rfl]
    refine congrArg (· :: _) (eq_of_toNat_eq ?_)
    rw [BitVec.toNat_setWidth, BitVec.toNat_and, show (0x7f : BitVec 32).toNat = 2 ^ 7 - 1 from rfl,
      and_two_pow_sub_one_eq_mod, toNat_ofNat]
    show _ = v % 256
    omega
  rw [if_neg h₁, if_neg (show ¬v ≤ 0x7f by omega)]
  by_cases h₂ : v < 2 ^ 11
  · rw [if_pos h₂, if_pos (show v ≤ 0x7ff by omega), @encodeBytes_succ v 1 5 6 hv (by decide) rfl (by decide) rfl,
      encodeTail_succ hv, encodeTail, mul_zero, pow_zero, Nat.div_one]
    rfl
  rw [if_neg h₂, if_neg (show ¬v ≤ 0x7ff by omega)]
  by_cases h₃ : v < 2 ^ 16
  · rw [if_pos h₃, if_pos (show v ≤ 0xffff by omega), @encodeBytes_succ v 2 4 14 hv (by decide) rfl (by decide) rfl,
      encodeTail_succ hv, encodeTail_succ hv, encodeTail, mul_zero, pow_zero, Nat.div_one]
    rfl
  rw [if_neg h₃, if_neg (show ¬v ≤ 0xffff by omega), if_pos (show v < 2 ^ 21 by omega),
    @encodeBytes_succ v 3 3 30 hv (by decide) rfl (by decide) rfl, encodeTail_succ hv,
    encodeTail_succ hv, encodeTail_succ hv, encodeTail, mul_zero, pow_zero, Nat.div_one]
  rfl

theorem length_utf8 (hpos : 0 < v) (h : v.isValidChar) : (utf8 v).length = byteCount v := by
  rw [← encodeBytes_eq hpos h, length_encodeBytes _ (byteCount_pos v)]

/-- What `utf8_encode` does with a character. -/
theorem utf8Encode_char {room : ℕ} (hpos : 0 < v) (h : v.isValidChar) :
    utf8Encode 6 (BitVec.ofNat 32 v) (BitVec.ofNat 32 room) =
      some (if (utf8 v).length ≤ room % 2 ^ 32 then ((utf8 v).length, utf8 v) else (0, [])) := by
  have hmax : v < 0x110000 := by
    rcases h with h | h <;> omega
  have hv : (BitVec.ofNat 32 v).toNat = v := by
    rw [toNat_ofNat]
    omega
  rw [utf8Encode_eq (by omega), hv, toNat_ofNat, encodeBytes_eq hpos h, length_utf8 hpos h]
  by_cases hroom : byteCount v ≤ room % 2 ^ 32
  · rw [if_pos hroom, if_neg (not_lt.mpr hroom)]
  · rw [if_neg hroom, if_pos (not_le.mp hroom)]

end Encoding

section Digits

variable {q : HexQuad} {s : List QByte}

theorem hex_range (q : HexQuad) (k : Fin 4) :
    (0x30 ≤ (q.digits k).toNat ∧ (q.digits k).toNat ≤ 0x39 ∧ hexValue (q.digits k) = (q.digits k).toNat - 0x30) ∨
    (0x41 ≤ (q.digits k).toNat ∧ (q.digits k).toNat ≤ 0x46 ∧ hexValue (q.digits k) = (q.digits k).toNat - 0x41 + 10) ∨
    (0x61 ≤ (q.digits k).toNat ∧ (q.digits k).toNat ≤ 0x66 ∧ hexValue (q.digits k) = (q.digits k).toNat - 0x61 + 10) := by
  have hvalue : hexValue (q.digits k) = if (q.digits k).toNat ≤ 0x39 then (q.digits k).toNat - 0x30
    else if (q.digits k).toNat ≤ 0x46 then (q.digits k).toNat - 0x41 + 10 else (q.digits k).toNat - 0x61 + 10 := rfl
  rcases q.hex k with ⟨hle, hge⟩ | ⟨hle, hge⟩ | ⟨hle, hge⟩
  · have hge' : (q.digits k).toNat ≤ 0x39 := hge
    exact .inl ⟨hle, hge, by rw [hvalue, if_pos hge']⟩
  · have hle' : 0x41 ≤ (q.digits k).toNat := hle
    have hge' : (q.digits k).toNat ≤ 0x46 := hge
    exact .inr (.inl ⟨hle, hge, by rw [hvalue, if_neg (by omega), if_pos hge']⟩)
  · have hle' : 0x61 ≤ (q.digits k).toNat := hle
    exact .inr (.inr ⟨hle, hge, by rw [hvalue, if_neg (by omega), if_neg (by omega)]⟩)

theorem hexValue_lt (q : HexQuad) (k : Fin 4) : hexValue (q.digits k) < 16 := by
  rcases hex_range q k with h | h | h <;> omega

/-- A digit is put below the ones before it. -/
theorem dehex_digit (q : HexQuad) (k : Fin 4) {ret : BitVec 32} {shift p : ℕ} (hret : ret.toNat = p * 16 * 2 ^ shift)
    (hshift : shift ≤ 12) :
    ∃ code, dehex (q.digits k) ret shift = some code ∧ code.toNat = (p * 16 + hexValue (q.digits k)) * 2 ^ shift := by
  have hdigit : ∃ x : BitVec 32, dehex (q.digits k) ret shift = some (ret ||| x <<< shift) ∧
      x.toNat = hexValue (q.digits k) := by
    unfold dehex
    simp only [le_def, BitVec.reduceToNat]
    rcases hex_range q k with ⟨hle, hge, hvalue⟩ | ⟨hle, hge, hvalue⟩ | ⟨hle, hge, hvalue⟩
    · refine ⟨(q.digits k).setWidth 32 - 0x30, if_pos ⟨hle, hge⟩, ?_⟩
      bv_omega
    · refine ⟨(q.digits k).setWidth 32 - 0x41 + 10, ?_, by bv_omega⟩
      rw [if_neg (by omega), if_pos ⟨hle, hge⟩]
    · refine ⟨(q.digits k).setWidth 32 - 0x61 + 10, ?_, by bv_omega⟩
      rw [if_neg (by omega), if_neg (by omega), if_pos ⟨hle, hge⟩]
  obtain ⟨x, hx, hvalue⟩ := hdigit
  refine ⟨_, hx, ?_⟩
  have hlt := hexValue_lt q k
  have hpow : 2 ^ shift ≤ 2 ^ 12 := Nat.pow_le_pow_right (by decide) hshift
  have hsmall : hexValue (q.digits k) * 2 ^ shift < 2 ^ 32 := by
    calc hexValue (q.digits k) * 2 ^ shift ≤ 15 * 2 ^ 12 := Nat.mul_le_mul (by omega) hpow
      _ < 2 ^ 32 := by decide
  rw [BitVec.toNat_or, BitVec.toNat_shiftLeft, shiftLeft_eq, hvalue, Nat.mod_eq_of_lt hsmall, hret,
    show p * 16 * 2 ^ shift = 2 ^ (shift + 4) * p by rw [pow_add]; ring,
    ← two_pow_add_eq_or_of_lt (by
      rw [pow_add, mul_comm]
      exact Nat.mul_lt_mul_of_pos_left hlt (Nat.two_pow_pos shift))]
  rw [pow_add]
  ring

theorem dehexFour_text (q : HexQuad) (s : List QByte) :
    dehexFour (q.text ++ s) = some (BitVec.ofNat 32 q.value) := by
  obtain ⟨c₀, h₀, hc₀⟩ := @dehex_digit q 0 0 12 0 rfl (by decide)
  obtain ⟨c₁, h₁, hc₁⟩ := @dehex_digit q 1 c₀ 8 (hexValue (q.digits 0)) (by rw [hc₀]; ring) (by decide)
  obtain ⟨c₂, h₂, hc₂⟩ := @dehex_digit q 2 c₁ 4 (hexValue (q.digits 0) * 16 + hexValue (q.digits 1))
    (by rw [hc₁]; ring) (by decide)
  obtain ⟨c₃, h₃, hc₃⟩ := @dehex_digit q 3 c₂ 0
    ((hexValue (q.digits 0) * 16 + hexValue (q.digits 1)) * 16 + hexValue (q.digits 2)) (by rw [hc₂]; ring) (by decide)
  have hlist : q.text ++ s = q.digits 0 :: q.digits 1 :: q.digits 2 :: q.digits 3 :: s := by
    simp [HexQuad.text, ofFn_succ]
  have hvalue : c₃ = BitVec.ofNat 32 q.value := by
    apply eq_of_toNat_eq
    have := c₃.isLt
    rw [toNat_ofNat, hc₃] at *
    unfold HexQuad.value
    omega
  rw [dehexFour, hlist]
  simp only [getD_cons_zero, getD_cons_succ, h₀, h₁, h₂, h₃, Option.bind_some, hvalue]

theorem HexQuad.value_lt (q : HexQuad) : q.value < 2 ^ 16 := by
  have := hexValue_lt q 0
  have := hexValue_lt q 1
  have := hexValue_lt q 2
  have := hexValue_lt q 3
  unfold HexQuad.value
  omega

@[simp] theorem HexQuad.length_text (q : HexQuad) : q.text.length = 4 := length_ofFn

end Digits

section Loop

variable {s : List QByte} {n room : ℕ}

/-- The code of an escape that is no surrogate. -/
theorem escapeCode_code {q : HexQuad} (h : q.value < 0xd800 ∨ 0xe000 ≤ q.value) (s : List QByte) :
    escapeCode (q.text ++ s) = some (BitVec.ofNat 32 q.value, 4) := by
  have hlt := q.value_lt
  rw [escapeCode, dehexFour_text, Option.map_some, if_neg]
  intro hsurrogate
  have hle := le_def.mp hsurrogate.1
  have hge := BitVec.lt_def.mp hsurrogate.2.1
  simp only [toNat_ofNat, BitVec.reduceToNat] at hle hge
  omega

/-- The code of a pair of surrogates. -/
theorem escapeCode_pair {high low : HexQuad} (hhigh : 0xd800 ≤ high.value ∧ high.value < 0xdc00)
    (hlow : 0xdc00 ≤ low.value ∧ low.value < 0xe000) (s : List QByte) :
    escapeCode (high.text ++ ([backslash, 0x75] ++ low.text ++ s)) =
      some (BitVec.ofNat 32 (0x10000 + (high.value - 0xd800) * 0x400 + (low.value - 0xdc00)), 10) := by
  have hbehind (k : ℕ) : (high.text ++ ([backslash, 0x75] ++ low.text ++ s)).getD (4 + k) 0 =
      ([backslash, 0x75] ++ low.text ++ s).getD k 0 := by
    rw [getD_append_right _ _ _ _ (by rw [HexQuad.length_text]; omega), HexQuad.length_text,
      Nat.add_sub_cancel_left]
  have hdrop : (high.text ++ ([backslash, 0x75] ++ low.text ++ s)).drop 6 = low.text ++ s := by
    rw [append_assoc, ← append_assoc, drop_left' (by simp)]
  rw [escapeCode, dehexFour_text, Option.map_some, hdrop, dehexFour_text]
  have hsurrogate : 0xd800 ≤ BitVec.ofNat 32 high.value ∧ BitVec.ofNat 32 high.value < 0xdc00 := by bv_omega
  have htail : 0xdc00 ≤ BitVec.ofNat 32 low.value ∧ BitVec.ofNat 32 low.value < 0xe000 := by bv_omega
  rw [if_pos ⟨hsurrogate.1, hsurrogate.2, hbehind 0, hbehind 1⟩]
  simp only [if_pos htail]
  refine congrArg (fun c => some (c, 10)) (eq_of_toNat_eq ?_)
  bv_omega

theorem readBodyLoop_zero (s : List QByte) (n : ℕ) : readBodyLoop s n 0 = some [] := by
  rw [readBodyLoop, if_neg fun h => absurd h.2 (lt_irrefl 0)]

theorem readBodyLoop_done (s : List QByte) (room : ℕ) : readBodyLoop s 0 room = some [] := by
  rw [readBodyLoop, if_neg fun h => absurd h.1 (lt_irrefl 0)]

theorem readBodyLoop_raw {b : QByte} (hb : b ≠ backslash) (hroom : 0 < room) :
    readBodyLoop (b :: s) (n + 1) room = (readBodyLoop s n (room - 1)).map (b :: ·) := by
  rw [readBodyLoop, if_pos ⟨succ_pos n, hroom⟩, if_pos (show (b :: s).getD 0 0 ≠ backslash from hb)]
  rfl

theorem readBodyLoop_simple {c b : QByte} (hc : simpleEscape c = some b) (hroom : 0 < room) :
    readBodyLoop (backslash :: c :: s) (n + 2) room = (readBodyLoop s n (room - 1)).map (b :: ·) := by
  rw [readBodyLoop, if_pos ⟨succ_pos _, hroom⟩,
    if_neg (show ¬(backslash :: c :: s).getD 0 0 ≠ backslash from not_not_intro rfl), if_neg (by omega)]
  simp only [getD_cons_succ, getD_cons_zero, hc]
  rfl

/-- A `\u` escape. -/
theorem readBodyLoop_code {code : BitVec 32} {used : ℕ} {w : ℕ × List QByte} (hroom : 0 < room)
    (hcode : escapeCode s = some (code, used)) (hw : utf8Encode 6 code (BitVec.ofNat 32 room) = some w) :
    readBodyLoop (backslash :: 0x75 :: s) (n + 2) room =
      (readBodyLoop (s.drop used) (n - used) (room - w.1)).map (w.2 ++ ·) := by
  have hletter : simpleEscape 0x75 = none := rfl
  have hdrop : (backslash :: 0x75 :: s).drop (2 + used) = s.drop used := by
    rw [Nat.add_comm]
    rfl
  rw [readBodyLoop, if_pos ⟨succ_pos _, hroom⟩,
    if_neg (show ¬(backslash :: 0x75 :: s).getD 0 0 ≠ backslash from not_not_intro rfl), if_neg (by omega)]
  simp only [getD_cons_succ, getD_cons_zero, hletter, if_pos, drop_succ_cons, drop_zero, hcode, hw]
  rw [hdrop, Nat.add_comm 2 used, Nat.add_sub_add_right]

/-- A `\u` escape of a character, or a pair of them. -/
theorem readBodyLoop_char {digits : List QByte} {v : ℕ} (hroom : 0 < room) (hpos : 0 < v) (hv : v.isValidChar)
    (hcode : escapeCode (digits ++ s) = some (BitVec.ofNat 32 v, digits.length)) :
    readBodyLoop (backslash :: 0x75 :: (digits ++ s)) (digits.length + n + 2) room =
      if (utf8 v).length ≤ room % 2 ^ 32 then (readBodyLoop s n (room - (utf8 v).length)).map (utf8 v ++ ·)
      else readBodyLoop s n room := by
  rw [readBodyLoop_code hroom hcode (utf8Encode_char hpos hv), drop_left, Nat.add_sub_cancel_left]
  by_cases hfits : (utf8 v).length ≤ room % 2 ^ 32
  · rw [if_pos hfits, if_pos hfits]
  · rw [if_neg hfits, if_neg hfits]
    exact Option.map_id'

/-- A unit at the front of the body. -/
theorem readBodyLoop_unit (u : BodyUnit) (hroom : 0 < room) :
    readBodyLoop (u.text ++ s) (u.text.length + n) room =
      if u.Fits room then (readBodyLoop s n (room - u.decoded.length)).map (u.decoded ++ ·)
      else readBodyLoop s n room := by
  cases u with
  | raw b h =>
    rw [if_pos (show (BodyUnit.raw b h).Fits room from trivial), Nat.add_comm]
    exact readBodyLoop_raw h hroom
  | simple e h =>
    have hletter : simpleEscapes.Forall fun e => simpleEscape e.1 = some e.2 := by decide
    rw [if_pos (show (BodyUnit.simple e h).Fits room from trivial), Nat.add_comm]
    exact readBodyLoop_simple (forall_iff_forall_mem.1 hletter e h) hroom
  | code q h =>
    have hcode := escapeCode_code h.2 s
    rw [← q.length_text] at hcode
    have hlt := q.value_lt
    have hunit := @readBodyLoop_char s n room _ _ hroom h.1 (h.2.imp id fun hge => ⟨by omega, by omega⟩) hcode
    rwa [add_right_comm] at hunit
  | pair high low hhigh hlow =>
    have hcode := escapeCode_pair hhigh hlow s
    have hdigits : (high.text ++ ([backslash, 0x75] ++ low.text)).length = 10 := by simp
    rw [← hdigits, ← append_assoc] at hcode
    have hunit := @readBodyLoop_char s n room _ _ hroom (by omega) (.inr ⟨by omega, by omega⟩) hcode
    rw [add_right_comm] at hunit
    have htext : (BodyUnit.pair high low hhigh hlow).text =
        backslash :: 0x75 :: (high.text ++ ([backslash, 0x75] ++ low.text)) := by
      rw [BodyUnit.text, append_assoc, append_assoc]
      rfl
    rw [htext]
    exact hunit

/-- What is written of the units. -/
def taken : List BodyUnit → ℕ → List QByte
  | [], _ => []
  | u :: us, room =>
    if room = 0 then []
    else if u.Fits room then u.decoded ++ taken us (room - u.decoded.length)
    else taken us room

theorem readBodyLoop_units (us : List BodyUnit) (s : List QByte) (room : ℕ) :
    readBodyLoop (bodyText us ++ s) (bodyText us).length room = some (taken us room) := by
  induction us generalizing room with
  | nil => exact readBodyLoop_done s room
  | cons u us ih =>
    rcases room.eq_zero_or_pos with rfl | hroom
    · rw [readBodyLoop_zero, taken, if_pos rfl]
    · have htext : bodyText (u :: us) = u.text ++ bodyText us := flatMap_cons
      rw [htext, append_assoc, length_append, readBodyLoop_unit u hroom, ih, ih, taken,
        if_neg hroom.ne', Option.map_some, ← apply_ite some]

end Loop

section Taken

variable {u : BodyUnit} {us : List BodyUnit} {room : ℕ} {text : List QByte}

theorem decoded_length_pos (u : BodyUnit) : 0 < u.decoded.length := by
  cases u with
  | raw b h => exact one_pos
  | simple e h => exact one_pos
  | code q h =>
    have hlt := q.value_lt
    exact (byteCount_pos _).trans_eq (length_utf8 h.1 (h.2.imp id fun hge => ⟨by omega, by omega⟩)).symm
  | pair high low hhigh hlow =>
    exact (byteCount_pos _).trans_eq (length_utf8 (by omega) (.inr ⟨by omega, by omega⟩)).symm

/-- A unit that fits has room. -/
theorem BodyUnit.Fits.le (h : u.Fits room) (hroom : room ≠ 0) : u.decoded.length ≤ room := by
  cases u with
  | raw b h => exact one_le_iff_ne_zero.mpr hroom
  | simple e h => exact one_le_iff_ne_zero.mpr hroom
  | code q hq => exact le_trans h (mod_le _ _)
  | pair high low hhigh hlow => exact le_trans h (mod_le _ _)

theorem bodyDecoded_cons : bodyDecoded (u :: us) = u.decoded ++ bodyDecoded us := flatMap_cons

/-- Never more is written than there is room for, nor than the text. -/
theorem taken_length_le (us : List BodyUnit) (room : ℕ) :
    (taken us room).length ≤ room ∧ (taken us room).length ≤ (bodyDecoded us).length := by
  induction us generalizing room with
  | nil => exact ⟨zero_le _, zero_le _⟩
  | cons u us ih =>
    rw [taken, bodyDecoded_cons, length_append]
    by_cases hroom : room = 0
    · rw [if_pos hroom]
      exact ⟨zero_le _, zero_le _⟩
    rw [if_neg hroom]
    by_cases hfits : u.Fits room
    · obtain ⟨hle, hle'⟩ := ih (room - u.decoded.length)
      have := hfits.le hroom
      rw [if_pos hfits, length_append]
      omega
    · obtain ⟨hle, hle'⟩ := ih room
      rw [if_neg hfits]
      omega

theorem append_prefix_iff {a b c : List QByte} : a ++ b <+: c ↔ a <+: c ∧ b <+: c.drop a.length := by
  constructor
  · rintro ⟨t, rfl⟩
    rw [append_assoc, drop_left]
    exact ⟨prefix_append _ _, prefix_append _ _⟩
  · rintro ⟨⟨t, rfl⟩, h⟩
    rw [drop_left] at h
    exact (prefix_append_right_inj a).mpr h

theorem taken_prefix_iff : taken us room <+: text ↔ Repeats us room text := by
  induction us generalizing room text with
  | nil => exact iff_of_true nil_prefix trivial
  | cons u us ih =>
    rw [taken, Repeats]
    by_cases hroom : room = 0
    · rw [if_pos hroom, if_pos hroom]
      exact iff_of_true nil_prefix trivial
    rw [if_neg hroom, if_neg hroom]
    by_cases hfits : u.Fits room
    · rw [if_pos hfits, if_pos hfits, append_prefix_iff, ih]
    · rw [if_neg hfits, if_neg hfits, ih]

theorem taken_iff (us : List BodyUnit) (room : ℕ) :
    (taken us room <+: bodyDecoded us ∧ ((bodyDecoded us).length ≤ room → taken us room = bodyDecoded us)) ↔
      NoneLost us room := by
  induction us generalizing room with
  | nil => exact iff_of_true ⟨ nil_prefix, fun _ => rfl⟩ trivial
  | cons u us ih =>
    have hpos := decoded_length_pos u
    rw [taken, NoneLost]
    by_cases hroom : room = 0
    · rw [if_pos hroom, if_pos hroom]
      refine iff_of_true ⟨ nil_prefix, fun hle => ?_⟩ trivial
      rw [bodyDecoded_cons, length_append] at hle
      omega
    rw [if_neg hroom, if_neg hroom]
    by_cases hfits : u.Fits room
    · have hle := hfits.le hroom
      rw [if_pos hfits, if_pos hfits, ← ih, bodyDecoded_cons, prefix_append_right_inj, length_append,
        append_cancel_left_eq]
      refine and_congr_right fun _ => imp_congr_left ?_
      omega
    · rw [if_neg hfits, if_neg hfits, ← taken_prefix_iff, and_comm]
      refine and_congr_left fun _ => ⟨fun h => ?_, fun h hle => absurd hle (not_le.mpr h)⟩
      by_contra hle
      have heq := congrArg List.length (h (not_lt.mp hle))
      have := (taken_length_le us room).2
      rw [bodyDecoded_cons, length_append] at heq
      omega

theorem jsonReadBody_units (us : List BodyUnit) (after : List QByte) {outsize : ℕ} (hsize : 0 < outsize) :
    jsonReadBody (some (bodyText us, after)) (some outsize) =
      some ((bodyText us).length, taken us (outsize - 1) ++ [0]) := by
  unfold jsonReadBody
  simp only [Option.getD_some, if_neg hsize.ne']
  rw [readBodyLoop_units, Option.map_some]

/-- **On the body of a valid string `JSON_ReadBody` returns its length and writes at most `outsize` bytes; it
writes a prefix of the text, and all of it when there is room, if and only if no escape is lost before the
buffer is full, or what is written behind the first that is repeats the text.** -/
theorem jsonReadBody_prefix_iff (us : List BodyUnit) (after : List QByte) (outsize : ℕ) (hsize : 0 < outsize) :
    ∃ w, jsonReadBody (some (bodyText us, after)) (some outsize) = some ((bodyText us).length, w ++ [0]) ∧
      (w ++ [0]).length ≤ outsize ∧
      ((w <+: bodyDecoded us ∧ ((bodyDecoded us ++ [0]).length ≤ outsize → w = bodyDecoded us)) ↔
        NoneLost us (outsize - 1)) := by
  refine ⟨taken us (outsize - 1), jsonReadBody_units us after hsize, ?_, ?_⟩
  · have := (taken_length_le us (outsize - 1)).1
    rw [List.length_append, List.length_singleton]
    omega
  · rw [← taken_iff, List.length_append, List.length_singleton]
    refine and_congr_right fun _ => imp_congr_left ?_
    omega

/-- The escape `\u00e9`. -/
def acuteE : BodyUnit :=
  .code ⟨[0x30, 0x30, 0x65, 0x39].get, by decide⟩ (by decide)

/-- A string of two characters, of which one byte has room. -/
theorem jsonReadBody_acute :
    ∃ w, jsonReadBody (some (bodyText [acuteE], [quote])) (some 3) = some ((bodyText [acuteE]).length, w ++ [0]) ∧
      (w ++ [0]).length ≤ 3 ∧ ((w <+: bodyDecoded [acuteE] ∧
        ((bodyDecoded [acuteE] ++ [0]).length ≤ 3 → w = bodyDecoded [acuteE])) ↔ NoneLost [acuteE] (3 - 1)) :=
  jsonReadBody_prefix_iff [acuteE] [quote] 3 (by decide)

/-- Of `\u00e9a` the second character is written to a buffer of two bytes. -/
theorem jsonReadBody_skips :
    ¬∀ (us : List BodyUnit) (after : List QByte) (outsize : ℕ), 0 < outsize → ∃ w,
      jsonReadBody (some (bodyText us, after)) (some outsize) = some ((bodyText us).length, w ++ [0]) ∧
      (w ++ [0]).length ≤ outsize ∧ w <+: bodyDecoded us ∧
      ((bodyDecoded us ++ [0]).length ≤ outsize → w = bodyDecoded us) := by
  intro h
  obtain ⟨w, hw, -, hpre, -⟩ := h [acuteE, .raw 0x61 (by decide)] [quote] 2 (by decide)
  rw [jsonReadBody_units _ _ (by decide)] at hw
  rw [← List.append_cancel_right (Prod.mk.inj (Option.some.inj hw)).2] at hpre
  revert hpre
  decide +kernel

end Taken

end JsonBody

end FteQuake
