import FteQuake.Common.Unicode
import FteQuake.Lib.BoundedMemory

/-!
# Base 64 and base 16

`Base64_EncodeBlock`, `Base64_EncodeBlockURI`, `Base64_DecodeBlock`, `Base16_EncodeBlock` and
`Base16_DecodeBlock` of `common.c`. A function that is given `outsize` bytes stores into a buffer of
that many and fails (`none`) where it stores outside. The input of `Base64_DecodeBlock` is what lies
before `in_end`.

`encode64` is the text of a byte string. The encoders write as much of it as there is room for with
a terminator (`encodeBlock_eq`); the decoder takes any spelling of it (`Spells`): in either alphabet,
with or without padding (`decodeLoop_spells`).

`Base16_EncodeBlock` compares `outsize` with the length of its text, but only to store the terminator,
which it stores at the start, where the text then goes.
-/

namespace FteQuake

open List Option Mem

namespace Base64

open Utf8 (Ishexcode dehex)

/-! ## Base 64 -/

/-- `Base64_Encode`. -/
def base64Encode (byt : ℕ) : QByte :=
  if byt < 26 then BitVec.ofNat 8 (0x41 + byt)
  else if byt < 52 then BitVec.ofNat 8 (0x61 + byt - 26)
  else if byt < 62 then BitVec.ofNat 8 (0x30 + byt - 52)
  else if byt = 62 then 0x2b
  else if byt = 63 then 0x2f
  else 0x21

/-- `Base64_Decode`. -/
def base64Decode (inp : QByte) : ℕ :=
  if 0x41 ≤ inp ∧ inp ≤ 0x5a then inp.toNat - 0x41
  else if 0x61 ≤ inp ∧ inp ≤ 0x7a then inp.toNat - 0x61 + 26
  else if 0x30 ≤ inp ∧ inp ≤ 0x39 then inp.toNat - 0x30 + 52
  else if inp = 0x2b ∨ inp = 0x2d then 62
  else if inp = 0x2f ∨ inp = 0x5f then 63
  else 0

/-- The character of padding. -/
def pad : QByte := 0x3d

/-- `if (out < end) *out++ = c`, where `end` is the last byte of the buffer. -/
def emit (outsize : ℕ) (c : QByte) (s : Mem QByte × ℕ) : Option (Mem QByte × ℕ) :=
  if s.2 + 1 < outsize then (s.1.put outsize s.2 c).map (·, s.2 + 1) else some s

/-- Three bytes as one number. -/
def triple (a b c : QByte) : ℕ := a.toNat <<< 16 ||| b.toNat <<< 8 ||| c.toNat

/-- The loop of `Base64_EncodeBlock`. -/
def encodeLoop (outsize : ℕ) (inp : List QByte) (s : Mem QByte × ℕ) : Option (Mem QByte × ℕ) :=
  if inp.length > 0 then do
    let v := triple (inp.getD 0 0) (inp.getD 1 0) (inp.getD 2 0)
    let s ← emit outsize (if inp.length ≥ 1 then base64Encode (v >>> 18 &&& 63) else pad) s
    let s ← emit outsize (if inp.length ≥ 1 then base64Encode (v >>> 12 &&& 63) else pad) s
    let s ← emit outsize (if inp.length ≥ 2 then base64Encode (v >>> 6 &&& 63) else pad) s
    let s ← emit outsize (if inp.length ≥ 3 then base64Encode (v >>> 0 &&& 63) else pad) s
    if inp.length ≤ 3 then some s else encodeLoop outsize (inp.drop 3) s
  else some s
termination_by inp.length
decreasing_by
  rw [List.length_drop]
  omega

/-- `Base64_EncodeBlock`: the buffer, and the number of characters. -/
def base64EncodeBlock (inp : List QByte) (out : Mem QByte) (outsize : ℕ) : Option (Mem QByte × ℕ) := do
  let s ← encodeLoop outsize inp (out, 0)
  if s.2 < outsize then (s.1.put outsize s.2 0).map (·, s.2) else some s

/-- The loop of `Base64_EncodeBlockURI`, over the rest of the characters. -/
def uriLoop (cap : ℕ) (out : Mem QByte) (length : ℕ) : ℕ → Option (Mem QByte × ℕ)
  | 0 => some (out, length)
  | rest + 1 =>
    if out length = 0x2b then do
      let out ← out.put cap length 0x2d
      uriLoop cap out (length + 1) rest
    else if out length = 0x2f then do
      let out ← out.put cap length 0x5f
      uriLoop cap out (length + 1) rest
    else if out length = pad then (out.put cap length 0).map (·, length)
    else uriLoop cap out (length + 1) rest

/-- `Base64_EncodeBlockURI`. -/
def base64EncodeBlockURI (inp : List QByte) (out : Mem QByte) (outsize : ℕ) : Option (Mem QByte × ℕ) := do
  let s ← base64EncodeBlock inp out outsize
  uriLoop outsize s.1 0 s.2

/-- `while (*in > 0 && *in < ' ') in++`. -/
def skipSpace (inp : List QByte) : List QByte := inp.dropWhile fun c => 0 < c ∧ c < 0x20

/-- The loop of `Base64_DecodeBlock`. -/
def decodeLoop (cap outsize : ℕ) (inp : List QByte) (out : Mem QByte) (n : ℕ) : Option (Mem QByte × ℕ) :=
  if outsize > 1 then
    match skipSpace inp with
    | [] => some (out, n)
    | c₀ :: inp =>
      if c₀ = 0 ∨ outsize < 1 then some (out, n)
      else
        match skipSpace inp with
        | [] => some (out, n)
        | c₁ :: inp =>
          if c₁ = 0 ∨ outsize < 1 then some (out, n)
          else do
            let v := base64Decode c₀ <<< 18 ||| base64Decode c₁ <<< 12
            let out ← out.put cap n (BitVec.ofNat 8 (v >>> 16))
            match inp with
            | [] => some (out, n + 1)
            | c₂ :: inp =>
              if c₂ = pad ∨ c₂ = 0 ∨ outsize < 2 then some (out, n + 1)
              else do
                let v := v ||| base64Decode c₂ <<< 6
                let out ← out.put cap (n + 1) (BitVec.ofNat 8 (v >>> 8))
                match inp with
                | [] => some (out, n + 2)
                | c₃ :: inp =>
                  if c₃ = pad ∨ c₃ = 0 ∨ outsize < 3 then some (out, n + 2)
                  else do
                    let v := v ||| base64Decode c₃
                    let out ← out.put cap (n + 2) (BitVec.ofNat 8 v)
                    decodeLoop cap (outsize - 3) inp out (n + 3)
  else some (out, n)
termination_by outsize

/-- `Base64_DecodeBlock`: the buffer, and the number of bytes. -/
def base64DecodeBlock (inp : List QByte) (out : Mem QByte) (outsize : ℕ) : Option (Mem QByte × ℕ) :=
  decodeLoop outsize outsize inp out 0

/-! ## Base 16 -/

/-- `tab`. -/
def tab (n : ℕ) : QByte := if n < 10 then BitVec.ofNat 8 (0x30 + n) else BitVec.ofNat 8 (0x61 + n - 10)

/-- The loop of `Base16_EncodeBlock`. -/
def base16EncodeLoop (cap : ℕ) : List QByte → ℕ → Mem QByte → Option (Mem QByte × ℕ)
  | [], n, out => some (out, n)
  | c :: inp, n, out => do
    let out ← out.put cap n (tab (c.toNat >>> 4 &&& 0xf))
    let out ← out.put cap (n + 1) (tab (c.toNat >>> 0 &&& 0xf))
    base16EncodeLoop cap inp (n + 2) out

/-- `Base16_EncodeBlock`. -/
def base16EncodeBlock (inp : List QByte) (out : Mem QByte) (outsize : ℕ) : Option (Mem QByte × ℕ) := do
  let out ← (if outsize > inp.length * 2 then out.put outsize 0 0 else some out : Option (Mem QByte))
  base16EncodeLoop outsize inp 0 out

/-- The loop of `Base16_DecodeBlock`. -/
def base16DecodeLoop (cap : ℕ) (inp : Mem QByte) : (outsize i n : ℕ) → Mem QByte → Option (Mem QByte × ℕ)
  | 0, _, n, out => some (out, n)
  | outsize + 1, i, n, out =>
    if Ishexcode (inp i) ∧ Ishexcode (inp (i + 1)) then do
      let out ← out.put cap n ((dehex (inp i) <<< 4 ||| dehex (inp (i + 1))).setWidth 8)
      base16DecodeLoop cap inp outsize (i + 2) (n + 1) out
    else some (out, n)

/-- `Base16_DecodeBlock`. -/
def base16DecodeBlock (inp out : Mem QByte) (outsize : ℕ) : Option (Mem QByte × ℕ) :=
  base16DecodeLoop outsize inp outsize 0 0 out

/-! ## The texts -/

/-- Two bits, four bits and six bits of three bytes: the number `n` of four digits. -/
def sextet (a b c : QByte) (n : ℕ) : ℕ := triple a b c / 2 ^ (18 - 6 * n) % 64

/-- The text of a byte string in base 64. -/
def encode64 : List QByte → List QByte
  | [] => []
  | [a] => [base64Encode (sextet a 0 0 0), base64Encode (sextet a 0 0 1), pad, pad]
  | [a, b] =>
    [base64Encode (sextet a b 0 0), base64Encode (sextet a b 0 1), base64Encode (sextet a b 0 2), pad]
  | a :: b :: c :: x =>
    base64Encode (sextet a b c 0) :: base64Encode (sextet a b c 1) :: base64Encode (sextet a b c 2) ::
      base64Encode (sextet a b c 3) :: encode64 x

/-- A character in the alphabet that is safe in addresses. -/
def uriChar (c : QByte) : QByte := if c = 0x2b then 0x2d else if c = 0x2f then 0x5f else c

/-- A text in that alphabet, without padding. -/
def uriText (xs : List QByte) : List QByte := (xs.takeWhile (· ≠ pad)).map uriChar

/-- The text of a byte string in base 16. -/
def encode16 (x : List QByte) : List QByte :=
  x.flatMap fun c => [tab (c.toNat >>> 4 &&& 0xf), tab (c.toNat >>> 0 &&& 0xf)]

section Encode

variable {a b c d : QByte} {x xs s : List QByte} {outsize n : ℕ} {out : Mem QByte}

theorem triple_eq (a b c : QByte) : triple a b c = a.toNat * 2 ^ 16 + b.toNat * 2 ^ 8 + c.toNat := by
  have hb := b.isLt
  have hc := c.isLt
  have hlow : b.toNat * 2 ^ 8 + c.toNat < 2 ^ 16 := by omega
  rw [triple, Nat.or_assoc, Nat.shiftLeft_eq b.toNat, Nat.mul_comm b.toNat,
    ← Nat.two_pow_add_eq_or_of_lt hc, Nat.shiftLeft_eq, Nat.mul_comm a.toNat,
    ← Nat.two_pow_add_eq_or_of_lt (by omega)]
  omega

theorem sextet_eq (a b c : QByte) (n : ℕ) : triple a b c >>> (18 - 6 * n) &&& 63 = sextet a b c n := by
  rw [sextet, Nat.shiftRight_eq_div_pow, show 63 = 2 ^ 6 - 1 from rfl, Nat.and_two_pow_sub_one_eq_mod]

/-- The characters that go to a buffer one after the other. -/
def emits (outsize : ℕ) : List QByte → Mem QByte × ℕ → Option (Mem QByte × ℕ)
  | [], s => some s
  | c :: xs, s => (emit outsize c s).bind (emits outsize xs)

/-- They fill it up to its last byte. -/
theorem emits_eq (outsize : ℕ) (xs : List QByte) (out : Mem QByte) (n : ℕ) :
    emits outsize xs (out, n) =
      some (out.blit n (xs.take (outsize - 1 - n)), n + (xs.take (outsize - 1 - n)).length) := by
  induction xs generalizing out n with
  | nil => simp [emits]
  | cons c xs ih =>
    rw [emits, emit]
    dsimp only
    by_cases hroom : n + 1 < outsize
    · have hblit : out.blit n (c :: xs.take (outsize - 1 - (n + 1)))
          = (out.blit n [c]).blit (n + 1) (xs.take (outsize - 1 - (n + 1))) :=
        blit_append out n [c] _
      rw [if_pos hroom, put_of_lt (by omega), map_some, bind_some, ih,
        show outsize - 1 - n = outsize - 1 - (n + 1) + 1 by omega, take_succ_cons, hblit, length_cons]
      congr 2
      omega
    · rw [if_neg hroom, bind_some, ih, show outsize - 1 - n = 0 by omega]
      simp

theorem encodeLoop_eq (outsize : ℕ) (x : List QByte) (s : Mem QByte × ℕ) :
    encodeLoop outsize x s = emits outsize (encode64 x) s := by
  induction x using encode64.induct generalizing s with
  | case1 =>
    rw [encodeLoop]
    rfl
  | case2 a =>
    rw [encodeLoop, if_pos (by simp), encode64, ← sextet_eq, ← sextet_eq]
    rfl
  | case3 a b =>
    rw [encodeLoop, if_pos (by simp), encode64, ← sextet_eq, ← sextet_eq, ← sextet_eq]
    rfl
  | case4 a b c x ih =>
    have hrest (s : Mem QByte × ℕ) :
        (if (a :: b :: c :: x).length ≤ 3 then some s else encodeLoop outsize ((a :: b :: c :: x).drop 3) s) =
          emits outsize (encode64 x) s := by
      rw [← ih]
      split
      · rename_i hshort
        cases x with
        | nil =>
          rw [encodeLoop]
          rfl
        | cons d x =>
          simp only [length_cons] at hshort
          omega
      · rfl
    rw [encodeLoop, if_pos (by simp), encode64, ← sextet_eq, ← sextet_eq, ← sextet_eq, ← sextet_eq]
    simp only [hrest]
    rfl

/-- `Base64_EncodeBlock` writes what there is room for, and a terminator. -/
theorem encodeBlock_eq (x : List QByte) (out : Mem QByte) (outsize : ℕ) :
    base64EncodeBlock x out outsize =
      some (out.blit 0 ((encode64 x).take (outsize - 1) ++ if outsize = 0 then [] else [0]),
        ((encode64 x).take (outsize - 1)).length) := by
  have hlength : ((encode64 x).take (outsize - 1)).length ≤ outsize - 1 := length_take_le _ _
  rw [base64EncodeBlock, encodeLoop_eq, emits_eq, Nat.sub_zero]
  simp only [bind_eq_bind, bind_some, Nat.zero_add]
  rcases Nat.eq_zero_or_pos outsize with rfl | hpos
  · rw [if_neg (Nat.not_lt_zero _), if_pos rfl, append_nil]
  · rw [if_pos (by omega), put_of_lt (by omega), map_some, if_neg hpos.ne', blit_append, Nat.zero_add]

/-- A character that stands for a number. -/
structure Digit (c : QByte) (n : ℕ) : Prop where
  value : base64Decode c = n
  printable : 0x20 < c
  ne_pad : c ≠ pad

theorem digit_base64Encode {n : ℕ} (hn : n < 64) : Digit (base64Encode n) n ∧ Digit (uriChar (base64Encode n)) n := by
  have hall : ∀ n < 64, (base64Decode (base64Encode n) = n ∧ 0x20 < base64Encode n ∧ base64Encode n ≠ pad) ∧
      base64Decode (uriChar (base64Encode n)) = n ∧ 0x20 < uriChar (base64Encode n) ∧
        uriChar (base64Encode n) ≠ pad := by
    decide +kernel
  obtain ⟨⟨h1, h2, h3⟩, h4, h5, h6⟩ := hall n hn
  exact ⟨⟨h1, h2, h3⟩, h4, h5, h6⟩

theorem sextet_lt (a b c : QByte) (n : ℕ) : sextet a b c n < 64 := Nat.mod_lt _ (by norm_num)

theorem Digit.ne_zero {c : QByte} (h : Digit c n) : c ≠ 0 := by
  rintro rfl
  exact absurd h.printable (by decide)

/-- A character of a text is a digit or padding. -/
theorem digit_of_mem (h : c ∈ encode64 x) : c = pad ∨ ∃ n < 64, c = base64Encode n := by
  have hsextet (a b d : QByte) (n : ℕ) : ∃ m < 64, base64Encode (sextet a b d n) = base64Encode m :=
    ⟨_, sextet_lt a b d n, rfl⟩
  induction x using encode64.induct with
  | case1 => exact absurd h not_mem_nil
  | case2 a =>
    simp only [encode64, mem_cons, not_mem_nil, or_false] at h
    rcases h with rfl | rfl | rfl | rfl
    · exact .inr (hsextet ..)
    · exact .inr (hsextet ..)
    · exact .inl rfl
    · exact .inl rfl
  | case3 a b =>
    simp only [encode64, mem_cons, not_mem_nil, or_false] at h
    rcases h with rfl | rfl | rfl | rfl
    · exact .inr (hsextet ..)
    · exact .inr (hsextet ..)
    · exact .inr (hsextet ..)
    · exact .inl rfl
  | case4 a b d x ih =>
    simp only [encode64, mem_cons] at h
    rcases h with rfl | rfl | rfl | rfl | h
    · exact .inr (hsextet ..)
    · exact .inr (hsextet ..)
    · exact .inr (hsextet ..)
    · exact .inr (hsextet ..)
    · exact ih h

theorem zero_notMem_encode64 (x : List QByte) : 0 ∉ encode64 x := by
  intro h
  rcases digit_of_mem h with h | ⟨n, hn, h⟩
  · exact absurd h (by decide)
  · exact (digit_base64Encode hn).1.ne_zero h.symm

end Encode

/-! ## The address-safe text -/

section Uri

variable {c : QByte} {x xs : List QByte} {cap n : ℕ} {out : Mem QByte}

/-- One character that is not padding. -/
theorem uriLoop_step (hpad : out n ≠ pad) (hn : n < cap) (rest : ℕ) :
    ∃ out', uriLoop cap out n (rest + 1) = uriLoop cap out' (n + 1) rest ∧ out' n = uriChar (out n) ∧
      ∀ i, i ≠ n → out' i = out i := by
  have hother (c : QByte) : ∀ i, i ≠ n → out.store n c i = out i := fun i hi => if_neg hi
  rw [uriLoop, uriChar]
  split
  · rw [Mem.put, if_pos hn]
    exact ⟨_, rfl, store_self .., hother _⟩
  · split
    · rw [Mem.put, if_pos hn]
      exact ⟨_, rfl, store_self .., hother _⟩
    · exact ⟨out, rfl, rfl, fun _ _ => rfl⟩

/-- The loop rewrites the text up to the padding, and terminates it there. -/
theorem uriLoop_eq (h : out.slice n xs.length = xs) (hcap : n + xs.length ≤ cap) :
    ∃ out', uriLoop cap out n xs.length = some (out', n + (uriText xs).length) ∧
      out'.slice n (uriText xs).length = uriText xs ∧
      (pad ∈ xs → out' (n + (uriText xs).length) = 0) ∧
      (∀ i < n, out' i = out i) ∧ ∀ i, n + xs.length ≤ i → out' i = out i := by
  induction xs generalizing out n with
  | nil => exact ⟨out, rfl, rfl, nofun, fun _ _ => rfl, fun _ _ => rfl⟩
  | cons c xs ih =>
    rw [length_cons] at h hcap ⊢
    rw [slice_succ] at h
    obtain ⟨hc, hxs⟩ := List.cons.inj h
    by_cases hpad : c = pad
    · subst hpad
      have htext : uriText (pad :: xs) = [] := rfl
      have hrun : uriLoop cap out n (xs.length + 1) = some (out.store n 0, n) := by
        rw [uriLoop, hc, if_neg (by decide), if_neg (by decide), if_pos rfl, Mem.put, if_pos (by omega)]
        rfl
      rw [htext, hrun]
      refine ⟨_, rfl, rfl, fun _ => store_self .., fun i hi => ?_, fun i hi => ?_⟩
      · exact if_neg (by omega)
      · exact if_neg (by omega)
    · obtain ⟨out₁, hstep, hat, hother⟩ := uriLoop_step (hc.trans_ne hpad) (show n < cap by omega) xs.length
      have hslice : out₁.slice (n + 1) xs.length = xs := by
        refine (slice_congr fun i hi _ => ?_).trans hxs
        exact hother i (by omega)
      obtain ⟨out₂, hrun, htext, hzero, hbefore, hafter⟩ := ih hslice (by omega)
      have hcons : uriText (c :: xs) = uriChar c :: uriText xs := by
        rw [uriText, takeWhile_cons_of_pos (by simpa using hpad)]
        rfl
      have hlength : n + (uriChar c :: uriText xs).length = n + 1 + (uriText xs).length := by
        rw [length_cons]
        omega
      rw [hcons, hstep, hrun, hlength]
      refine ⟨out₂, rfl, ?_, fun hmem => ?_, fun i hi => ?_, fun i hi => ?_⟩
      · rw [length_cons, slice_succ, htext, hbefore n (by omega), hat, hc]
      · exact hzero ((mem_cons.1 hmem).resolve_left (Ne.symm hpad))
      · rw [hbefore i (by omega), hother i (by omega)]
      · rw [hafter i (by omega), hother i (by omega)]

theorem zero_notMem_uriText (h : 0 ∉ xs) : 0 ∉ uriText xs := by
  have huri : ∀ c : QByte, uriChar c = 0 → c = 0 := by
    intro c hc
    unfold uriChar at hc
    split at hc
    · exact absurd hc (by decide)
    · split at hc
      · exact absurd hc (by decide)
      · exact hc
  intro hmem
  obtain ⟨c, hc, hzero⟩ := mem_map.1 hmem
  exact h (huri c hzero ▸ ( takeWhile_prefix _).subset hc)

/-- `Base64_EncodeBlockURI` writes what there is room for, and a terminator. -/
theorem encodeBlockURI_eq (x : List QByte) (out : Mem QByte) (outsize : ℕ) :
    ∃ out', base64EncodeBlockURI x out outsize =
        some (out', (uriText ((encode64 x).take (outsize - 1))).length) ∧
      (outsize ≠ 0 → out'.Holds 0 (uriText ((encode64 x).take (outsize - 1)))) := by
  rw [base64EncodeBlockURI, encodeBlock_eq]
  simp only [bind_eq_bind, bind_some]
  generalize htext : (encode64 x).take (outsize - 1) = s
  have hlength : s.length ≤ outsize - 1 := by
    rw [← htext]
    exact length_take_le _ _
  have hzero : 0 ∉ s := by
    rw [← htext]
    exact fun h => zero_notMem_encode64 x (mem_of_mem_take h)
  generalize hout : out.blit 0 (s ++ if outsize = 0 then [] else [0]) = out₁
  have hslice : out₁.slice 0 s.length = s := by
    rw [← hout, blit_append, slice_blit_before _ _ (by omega), slice_blit_self]
  obtain ⟨out₂, hrun, hs, hpad, -, hafter⟩ := uriLoop_eq hslice (show 0 + s.length ≤ outsize by omega)
  rw [Nat.zero_add] at hrun hpad
  refine ⟨out₂, hrun, fun hne => holds_iff.2 ⟨zero_notMem_uriText hzero, hs, ?_⟩⟩
  rw [Nat.zero_add]
  by_cases hmem : pad ∈ s
  · exact hpad hmem
  · have hall : (uriText s).length = s.length := by
      rw [uriText, length_map, takeWhile_eq_self_iff.2]
      intro c hc
      exact decide_eq_true fun hcpad => hmem (hcpad ▸ hc)
    rw [hall, hafter _ (by omega), ← hout, if_neg hne, blit_append, Nat.zero_add]
    exact blit_apply_add _ s.length [0] (i := 0) (by simp)

end Uri

/-! ## Decoding base 64 -/

/-- A text that stands for a byte string: digits, and at the end padding or nothing. -/
inductive Spells : List QByte → List QByte → Prop
  | nil : Spells [] []
  | one {a c₀ c₁ : QByte} {rest : List QByte} (h₀ : Digit c₀ (sextet a 0 0 0)) (h₁ : Digit c₁ (sextet a 0 0 1))
      (hrest : ∀ c ∈ rest.head?, c = pad) : Spells (c₀ :: c₁ :: rest) [a]
  | two {a b c₀ c₁ c₂ : QByte} {rest : List QByte} (h₀ : Digit c₀ (sextet a b 0 0))
      (h₁ : Digit c₁ (sextet a b 0 1)) (h₂ : Digit c₂ (sextet a b 0 2)) (hrest : ∀ c ∈ rest.head?, c = pad) :
      Spells (c₀ :: c₁ :: c₂ :: rest) [a, b]
  | three {a b c c₀ c₁ c₂ c₃ : QByte} {rest x : List QByte} (h₀ : Digit c₀ (sextet a b c 0))
      (h₁ : Digit c₁ (sextet a b c 1)) (h₂ : Digit c₂ (sextet a b c 2)) (h₃ : Digit c₃ (sextet a b c 3))
      (h : Spells rest x) : Spells (c₀ :: c₁ :: c₂ :: c₃ :: rest) (a :: b :: c :: x)

section Decode

variable {a b c d : QByte} {t x inp : List QByte} {cap outsize n : ℕ} {out : Mem QByte}

theorem spells_encode64 (x : List QByte) : Spells (encode64 x) x := by
  have hdigit (a b c : QByte) (n : ℕ) := (digit_base64Encode (sextet_lt a b c n)).1
  induction x using encode64.induct with
  | case1 => exact .nil
  | case2 a => exact .one (hdigit ..) (hdigit ..) (by simp)
  | case3 a b => exact .two (hdigit ..) (hdigit ..) (hdigit ..) (by simp)
  | case4 a b c x ih => exact .three (hdigit ..) (hdigit ..) (hdigit ..) (hdigit ..) ih

theorem spells_uriText (x : List QByte) : Spells (uriText (encode64 x)) x := by
  have hdigit (a b c : QByte) (n : ℕ) := digit_base64Encode (sextet_lt a b c n)
  have hcons (a b c : QByte) (n : ℕ) (s : List QByte) :
      uriText (base64Encode (sextet a b c n) :: s) = uriChar (base64Encode (sextet a b c n)) :: uriText s := by
    rw [uriText, takeWhile_cons_of_pos (by simpa using (hdigit a b c n).1.ne_pad)]
    rfl
  have hpad (s : List QByte) : uriText (pad :: s) = [] := rfl
  induction x using encode64.induct with
  | case1 => exact .nil
  | case2 a =>
    rw [encode64, hcons, hcons, hpad]
    exact .one (hdigit ..).2 (hdigit ..).2 nofun
  | case3 a b =>
    rw [encode64, hcons, hcons, hcons, hpad]
    exact .two (hdigit ..).2 (hdigit ..).2 (hdigit ..).2 nofun
  | case4 a b c x ih =>
    rw [encode64, hcons, hcons, hcons, hcons]
    exact .three (hdigit ..).2 (hdigit ..).2 (hdigit ..).2 (hdigit ..).2 ih

theorem skipSpace_digit (h : Digit c n) : skipSpace (c :: inp) = c :: inp := by
  refine dropWhile_cons_of_neg ?_
  rw [decide_eq_true_eq]
  exact fun hspace => absurd hspace.2 (BitVec.not_lt.2 (BitVec.le_of_lt h.printable))

/-- Digits put together again, as far as the bytes need them. -/
theorem sextets_eq (a b c : QByte) :
    sextet a b c 0 <<< 18 ||| sextet a b c 1 <<< 12 = triple a b c / 2 ^ 12 * 2 ^ 12 ∧
      sextet a b c 0 <<< 18 ||| sextet a b c 1 <<< 12 ||| sextet a b c 2 <<< 6 = triple a b c / 2 ^ 6 * 2 ^ 6 ∧
      sextet a b c 0 <<< 18 ||| sextet a b c 1 <<< 12 ||| sextet a b c 2 <<< 6 ||| sextet a b c 3 = triple a b c := by
  have htriple : triple a b c < 2 ^ 24 := by
    rw [triple_eq]
    have := a.isLt
    have := b.isLt
    have := c.isLt
    omega
  have hor {i u v : ℕ} (hv : v < 2 ^ i) : u * 2 ^ i ||| v = u * 2 ^ i + v := by
    rw [Nat.mul_comm, ← Nat.two_pow_add_eq_or_of_lt hv]
  have h0 : sextet a b c 0 = triple a b c / 2 ^ 18 % 64 := rfl
  have h1 : sextet a b c 1 = triple a b c / 2 ^ 12 % 64 := rfl
  have h2 : sextet a b c 2 = triple a b c / 2 ^ 6 % 64 := rfl
  have h3 : sextet a b c 3 = triple a b c % 64 := by rw [sextet, Nat.pow_zero, Nat.div_one]
  have hone : sextet a b c 0 <<< 18 ||| sextet a b c 1 <<< 12 = triple a b c / 2 ^ 12 * 2 ^ 12 := by
    rw [Nat.shiftLeft_eq, Nat.shiftLeft_eq, hor (by omega)]
    omega
  have htwo : triple a b c / 2 ^ 12 * 2 ^ 12 ||| sextet a b c 2 <<< 6 = triple a b c / 2 ^ 6 * 2 ^ 6 := by
    rw [Nat.shiftLeft_eq, hor (by omega)]
    omega
  have hthree : triple a b c / 2 ^ 6 * 2 ^ 6 ||| sextet a b c 3 = triple a b c := by
    rw [hor (by omega)]
    omega
  exact ⟨hone, by rw [hone, htwo], by rw [hone, htwo, hthree]⟩

theorem bytes_eq (a b c : QByte) :
    BitVec.ofNat 8 ((sextet a b c 0 <<< 18 ||| sextet a b c 1 <<< 12) >>> 16) = a ∧
      BitVec.ofNat 8 ((sextet a b c 0 <<< 18 ||| sextet a b c 1 <<< 12 ||| sextet a b c 2 <<< 6) >>> 8) = b ∧
      BitVec.ofNat 8
        (sextet a b c 0 <<< 18 ||| sextet a b c 1 <<< 12 ||| sextet a b c 2 <<< 6 ||| sextet a b c 3) = c := by
  obtain ⟨hone, htwo, hthree⟩ := sextets_eq a b c
  have hb := b.isLt
  have hc := c.isLt
  rw [hthree, htwo, hone, Nat.shiftRight_eq_div_pow, Nat.shiftRight_eq_div_pow, triple_eq]
  refine ⟨BitVec.eq_of_toNat_eq ?_, BitVec.eq_of_toNat_eq ?_, BitVec.eq_of_toNat_eq ?_⟩
  · rw [BitVec.toNat_ofNat]
    have ha := a.isLt
    omega
  · rw [BitVec.toNat_ofNat]
    omega
  · rw [BitVec.toNat_ofNat]
    omega

/-- A text with room for one byte more than it spells. -/
theorem decodeLoop_spells (h : Spells t x) (hout : x.length < outsize) (hcap : n + x.length ≤ cap) :
    decodeLoop cap outsize t out n = some (out.blit n x, n + x.length) := by
  induction h generalizing outsize n out with
  | nil =>
    rw [decodeLoop, blit_nil]
    split
    · rfl
    · rfl
  | @one a c₀ c₁ rest h₀ h₁ hrest =>
    rw [length_singleton] at hout hcap ⊢
    rw [decodeLoop, if_pos (by omega), skipSpace_digit h₀]
    dsimp only
    rw [if_neg (not_or.2 ⟨h₀.ne_zero, by omega⟩), skipSpace_digit h₁]
    dsimp only
    rw [if_neg (not_or.2 ⟨h₁.ne_zero, by omega⟩), h₀.value, h₁.value, (bytes_eq a 0 0).1,
      put_of_lt (by omega)]
    cases rest with
    | nil => rfl
    | cons c₂ rest => exact if_pos (.inl (hrest c₂ rfl))
  | @two a b c₀ c₁ c₂ rest h₀ h₁ h₂ hrest =>
    have hblit : out.blit n [a, b] = (out.blit n [a]).blit (n + 1) [b] := blit_append out n [a] [b]
    simp only [length_cons, length_nil] at hout hcap ⊢
    rw [decodeLoop, if_pos (by omega), skipSpace_digit h₀]
    dsimp only
    rw [if_neg (not_or.2 ⟨h₀.ne_zero, by omega⟩), skipSpace_digit h₁]
    dsimp only
    rw [if_neg (not_or.2 ⟨h₁.ne_zero, by omega⟩), h₀.value, h₁.value, h₂.value, (bytes_eq a b 0).1,
      (bytes_eq a b 0).2.1, put_of_lt (by omega)]
    simp only [bind_eq_bind, bind_some]
    rw [if_neg (not_or.2 ⟨h₂.ne_pad, not_or.2 ⟨h₂.ne_zero, by omega⟩⟩), put_of_lt (by omega),
      bind_some, hblit]
    cases rest with
    | nil => rfl
    | cons c₃ rest => exact if_pos (.inl (hrest c₃ rfl))
  | @three a b c c₀ c₁ c₂ c₃ rest x h₀ h₁ h₂ h₃ h ih =>
    have hblit : out.blit n (a :: b :: c :: x)
        = (((out.blit n [a]).blit (n + 1) [b]).blit (n + 2) [c]).blit (n + 3) x := by
      rw [show a :: b :: c :: x = [a] ++ ([b] ++ ([c] ++ x)) from rfl, blit_append, blit_append, blit_append]
      rfl
    simp only [length_cons] at hout hcap ⊢
    rw [decodeLoop, if_pos (by omega), skipSpace_digit h₀]
    dsimp only
    rw [if_neg (not_or.2 ⟨h₀.ne_zero, by omega⟩), skipSpace_digit h₁]
    dsimp only
    rw [if_neg (not_or.2 ⟨h₁.ne_zero, by omega⟩), h₀.value, h₁.value, h₂.value, h₃.value, (bytes_eq a b c).1,
      (bytes_eq a b c).2.1, (bytes_eq a b c).2.2, put_of_lt (by omega)]
    simp only [bind_eq_bind, bind_some]
    rw [if_neg (not_or.2 ⟨h₂.ne_pad, not_or.2 ⟨h₂.ne_zero, by omega⟩⟩), put_of_lt (by omega),
      bind_some, if_neg (not_or.2 ⟨h₃.ne_pad, not_or.2 ⟨h₃.ne_zero, by omega⟩⟩), put_of_lt (by omega),
      bind_some, ih (by omega) (by omega), hblit]
    congr 2
    omega

/-- The decoder stores inside its buffer, whatever the text. -/
theorem decodeLoop_isSome (hcap : n + outsize ≤ cap) (t : List QByte) (out : Mem QByte) :
    ∃ out' k, decodeLoop cap outsize t out n = some (out', k) := by
  induction outsize using Nat.strong_induction_on generalizing t n out with
  | _ outsize ih =>
    rw [decodeLoop]
    split
    · rename_i hout
      split
      · exact ⟨_, _, rfl⟩
      · split
        · exact ⟨_, _, rfl⟩
        · split
          · exact ⟨_, _, rfl⟩
          · split
            · exact ⟨_, _, rfl⟩
            · dsimp only
              rw [put_of_lt (by omega)]
              simp only [bind_eq_bind, bind_some]
              split
              · exact ⟨_, _, rfl⟩
              · split
                · exact ⟨_, _, rfl⟩
                · rw [put_of_lt (by omega), bind_some]
                  split
                  · exact ⟨_, _, rfl⟩
                  · split
                    · exact ⟨_, _, rfl⟩
                    · rename_i hroom
                      rw [not_or, not_or] at hroom
                      rw [put_of_lt (by omega), bind_some]
                      exact ih (outsize - 3) (by omega) (by omega) _ _
    · exact ⟨_, _, rfl⟩

end Decode

/-! ## The texts in base 16 -/

section Hex

variable {c : QByte} {x : List QByte} {cap outsize i n : ℕ} {inp out : Mem QByte}

theorem length_encode16 (x : List QByte) : (encode16 x).length = 2 * x.length := by
  induction x with
  | nil => rfl
  | cons c x ih =>
    rw [encode16, flatMap_cons, length_append, ← encode16, ih, length_cons, length_cons]
    simp only [length_cons, length_nil]
    omega

/-- The encoder's loop stores the text, and fails where it does not fit. -/
theorem base16EncodeLoop_eq (cap : ℕ) (x : List QByte) (n : ℕ) (out : Mem QByte) :
    base16EncodeLoop cap x n out = (out.puts cap n (encode16 x)).map (·, n + 2 * x.length) := by
  induction x generalizing n out with
  | nil => rfl
  | cons c x ih =>
    have htext : encode16 (c :: x) = tab (c.toNat >>> 4 &&& 0xf) :: tab (c.toNat >>> 0 &&& 0xf) :: encode16 x := rfl
    have hlength : n + 2 + 2 * x.length = n + 2 * (c :: x).length := by
      rw [length_cons]
      omega
    rw [htext, base16EncodeLoop, Mem.puts, map_bind]
    refine bind_congr fun out₁ _ => ?_
    rw [Function.comp_apply, Mem.puts, map_bind]
    refine bind_congr fun out₂ _ => ?_
    rw [Function.comp_apply, ih, hlength]

/-- The two characters of a byte are read back. -/
theorem dehex_tab (c : QByte) :
    Ishexcode (tab (c.toNat >>> 4 &&& 0xf)) ∧ Ishexcode (tab (c.toNat >>> 0 &&& 0xf)) ∧
      (dehex (tab (c.toNat >>> 4 &&& 0xf)) <<< 4 ||| dehex (tab (c.toNat >>> 0 &&& 0xf))).setWidth 8 = c := by
  have hdigit : ∀ n < 16, Ishexcode (tab n) ∧ dehex (tab n) = BitVec.ofNat 32 n := by
    decide
  have hall : ∀ h < 16, ∀ l < 16, (BitVec.ofNat 32 h <<< 4 ||| BitVec.ofNat 32 l).setWidth 8 =
      BitVec.ofNat 8 (h * 16 + l) := by
    decide +kernel
  have hc := c.isLt
  have hand (n : ℕ) : n &&& 0xf = n % 16 := Nat.and_two_pow_sub_one_eq_mod n 4
  have hhigh : c.toNat >>> 4 &&& 0xf = c.toNat / 16 := by
    rw [hand, Nat.shiftRight_eq_div_pow]
    omega
  have hlow : c.toNat >>> 0 &&& 0xf = c.toNat % 16 := hand _
  obtain ⟨hhex, hvalue⟩ := hdigit (c.toNat / 16) (by omega)
  obtain ⟨hhex', hvalue'⟩ := hdigit (c.toNat % 16) (by omega)
  rw [hhigh, hlow, hvalue, hvalue', hall _ (by omega) _ (by omega)]
  refine ⟨hhex, hhex', BitVec.eq_of_toNat_eq ?_⟩
  rw [BitVec.toNat_ofNat]
  omega

/-- A text with a character behind it that is not a digit, or room for no more. -/
theorem base16DecodeLoop_encode16 (h : inp.slice i (2 * x.length) = encode16 x) (hout : x.length ≤ outsize)
    (hend : x.length < outsize → ¬Ishexcode (inp (i + 2 * x.length))) (hcap : n + x.length ≤ cap) :
    base16DecodeLoop cap inp outsize i n out = some (out.blit n x, n + x.length) := by
  induction x generalizing outsize i n out with
  | nil =>
    rw [blit_nil]
    cases outsize with
    | zero => rfl
    | succ outsize =>
      rw [base16DecodeLoop, if_neg]
      · rfl
      · exact fun hhex => hend (Nat.zero_lt_succ _) hhex.1
  | cons c x ih =>
    obtain ⟨hhigh, hlow, hvalue⟩ := dehex_tab c
    have htext : encode16 (c :: x) = tab (c.toNat >>> 4 &&& 0xf) :: tab (c.toNat >>> 0 &&& 0xf) :: encode16 x := rfl
    have hblit : out.blit n (c :: x) = (out.blit n [c]).blit (n + 1) x := blit_append out n [c] x
    rw [length_cons] at h hout hend hcap
    rw [Nat.mul_succ, htext, slice_succ, slice_succ] at h
    obtain ⟨h0, h⟩ := List.cons.inj h
    obtain ⟨h1, h⟩ := List.cons.inj h
    obtain ⟨outsize, rfl⟩ := Nat.exists_eq_add_of_lt (Nat.lt_of_lt_of_le (Nat.zero_lt_succ x.length) hout)
    rw [Nat.zero_add] at hout hend ⊢
    rw [base16DecodeLoop, h0, h1, if_pos ⟨hhigh, hlow⟩, hvalue, put_of_lt (by omega), hblit]
    refine (ih h (by omega) (fun hlt => ?_) (by omega)).trans ?_
    · have hplace : i + 2 + 2 * x.length = i + 2 * (x.length + 1) := by omega
      exact hplace ▸ hend (by omega)
    · rw [length_cons]
      congr 2
      omega

/-- The decoder stores inside its buffer, whatever the text. -/
theorem base16DecodeLoop_isSome (hcap : n + outsize ≤ cap) (inp : Mem QByte) (i : ℕ) (out : Mem QByte) :
    ∃ out' k, base16DecodeLoop cap inp outsize i n out = some (out', k) := by
  induction outsize generalizing i n out with
  | zero => exact ⟨_, _, rfl⟩
  | succ outsize ih =>
    rw [base16DecodeLoop]
    split
    · rw [put_of_lt (by omega)]
      exact ih (by omega) _ _
    · exact ⟨_, _, rfl⟩

end Hex

/-! ## What the codecs keep -/

section Kept

/-- An encoder stored inside its buffer, and a terminator where there was room. -/
def Terminated (outsize : ℕ) (result : Option (Mem QByte × ℕ)) : Prop :=
  ∃ out k, result = some (out, k) ∧ (k < outsize → out k = 0)

/-- For the bytes `x` and a buffer `out` of `outsize` bytes: every function stores inside its buffer, the
texts are terminated, and where a text fitted with its terminator it is decoded to `x`. A text in base 16
that fitted without one is decoded by a decoder that is given the number of bytes. -/
structure Kept (x : List QByte) (out : Mem QByte) (outsize : ℕ) : Prop where
  terminated : Terminated outsize (base64EncodeBlock x out outsize)
  terminatedURI : Terminated outsize (base64EncodeBlockURI x out outsize)
  terminated16 : Terminated outsize (base16EncodeBlock x out outsize)
  inside (t : List QByte) (dst : Mem QByte) (size : ℕ) : (base64DecodeBlock t dst size).isSome
  inside16 (t dst : Mem QByte) (size : ℕ) : (base16DecodeBlock t dst size).isSome
  inverts {text : Mem QByte} {k : ℕ} (h : base64EncodeBlock x out outsize = some (text, k))
    (hfit : 4 * ((x.length + 2) / 3) < outsize) (dst : Mem QByte) {size : ℕ} (hsize : x.length + 1 ≤ size) :
    base64DecodeBlock (text.slice 0 k) dst size = some (dst.blit 0 x, x.length)
  invertsURI {text : Mem QByte} {k : ℕ} (h : base64EncodeBlockURI x out outsize = some (text, k))
    (hfit : (4 * x.length + 2) / 3 < outsize) (dst : Mem QByte) {size : ℕ} (hsize : x.length + 1 ≤ size) :
    base64DecodeBlock (text.slice 0 k) dst size = some (dst.blit 0 x, x.length)
  inverts16 {text : Mem QByte} {k : ℕ} (h : base16EncodeBlock x out outsize = some (text, k)) (dst : Mem QByte)
    {size : ℕ} (hsize : size = x.length ∨ x.length < size ∧ 2 * x.length < outsize) :
    base16DecodeBlock text dst size = some (dst.blit 0 x, x.length)

variable {x : List QByte} {out text : Mem QByte} {outsize k size : ℕ}

theorem length_encode64 (x : List QByte) : (encode64 x).length = 4 * ((x.length + 2) / 3) := by
  induction x using encode64.induct with
  | case1 => rfl
  | case2 a => simp [encode64]
  | case3 a b => simp [encode64]
  | case4 a b c x ih =>
    simp only [encode64, length_cons, ih]
    omega

theorem Spells.length_uriText {t : List QByte} (h : Spells t x) (ht : ∀ c ∈ t, c ≠ pad) :
    t.length = (4 * x.length + 2) / 3 := by
  have hnil {rest : List QByte} (hrest : ∀ c ∈ rest.head?, c = pad) (hne : ∀ c ∈ rest, c ≠ pad) : rest = [] := by
    cases rest with
    | nil => rfl
    | cons c rest => exact absurd (hrest c rfl) (hne c mem_cons_self)
  induction h with
  | nil => rfl
  | one h₀ h₁ hrest =>
    rw [hnil hrest fun c hc => ht c (.tail _ (.tail _ hc))]
    simp
  | two h₀ h₁ h₂ hrest =>
    rw [hnil hrest fun c hc => ht c (.tail _ (.tail _ (.tail _ hc)))]
    simp
  | three h₀ h₁ h₂ h₃ h ih =>
    simp only [length_cons, ih fun c hc => ht c (.tail _ (.tail _ (.tail _ (.tail _ hc))))]
    omega

theorem inverts64 (h : base64EncodeBlock x out outsize = some (text, k))
    (hfit : 4 * ((x.length + 2) / 3) < outsize) (dst : Mem QByte) (hsize : x.length + 1 ≤ size) :
    base64DecodeBlock (text.slice 0 k) dst size = some (dst.blit 0 x, x.length) := by
  rw [← length_encode64] at hfit
  rw [encodeBlock_eq, take_of_length_le (by omega), if_neg (by omega)] at h
  obtain ⟨rfl, rfl⟩ := Prod.mk.inj (some.inj h)
  rw [blit_append, slice_blit_before _ _ (by omega), slice_blit_self, base64DecodeBlock,
    decodeLoop_spells (spells_encode64 x) (by omega) (by omega), Nat.zero_add]

theorem invertsURI (h : base64EncodeBlockURI x out outsize = some (text, k))
    (hfit : (4 * x.length + 2) / 3 < outsize) (dst : Mem QByte) (hsize : x.length + 1 ≤ size) :
    base64DecodeBlock (text.slice 0 k) dst size = some (dst.blit 0 x, x.length) := by
  have hne : ∀ c ∈ uriText (encode64 x), c ≠ pad := by
    rintro c hc rfl
    obtain ⟨d, hd, huri⟩ := mem_map.1 hc
    have hdpad := mem_takeWhile_imp hd
    rcases digit_of_mem (( takeWhile_prefix _).subset hd) with rfl | ⟨n, hn, rfl⟩
    · exact absurd hdpad (by decide)
    · exact (digit_base64Encode hn).2.ne_pad huri
  rw [← (spells_uriText x).length_uriText hne] at hfit
  -- what is cut off is padding
  have htext : uriText ((encode64 x).take (outsize - 1)) = uriText (encode64 x) := by
    have hlength : (uriText (encode64 x)).length = ((encode64 x).takeWhile (· ≠ pad)).length := length_map _
    rw [uriText, ← take_takeWhile, take_of_length_le (by omega)]
    rfl
  obtain ⟨out', hrun, hholds⟩ := encodeBlockURI_eq x out outsize
  rw [htext] at hrun hholds
  obtain ⟨rfl, rfl⟩ := Prod.mk.inj (some.inj (hrun.symm.trans h))
  rw [(hholds (by omega)).chars, base64DecodeBlock, decodeLoop_spells (spells_uriText x) (by omega) (by omega),
    Nat.zero_add]

/-- `Base16_EncodeBlock`, where the text fits. -/
theorem base16EncodeBlock_eq (hfit : 2 * x.length ≤ outsize) (out : Mem QByte) :
    base16EncodeBlock x out outsize =
      some ((if outsize > 2 * x.length then out.store 0 0 else out).blit 0 (encode16 x), 2 * x.length) := by
  have hstart : (if outsize > x.length * 2 then out.put outsize 0 0 else some out) =
      some (if outsize > 2 * x.length then out.store 0 0 else out) := by
    rw [Nat.mul_comm]
    split
    · exact if_pos (by omega)
    · rfl
  rw [base16EncodeBlock, hstart]
  simp only [bind_eq_bind, bind_some]
  rw [base16EncodeLoop_eq, puts_of_le (by rw [length_encode16]; omega), Nat.zero_add]
  rfl

/-- Where it does not, the encoder stores behind its buffer. -/
theorem base16EncodeBlock_eq_none (hfit : outsize < 2 * x.length) (out : Mem QByte) :
    base16EncodeBlock x out outsize = none := by
  have hne : encode16 x ≠ [] := by
    rw [← length_pos_iff, length_encode16]
    omega
  rw [base16EncodeBlock, if_neg (by omega)]
  simp only [bind_eq_bind, bind_some]
  rw [base16EncodeLoop_eq, puts_of_lt (by rw [length_encode16]; omega) hne]
  rfl

/-- Behind the text lies what lay there, unless there is no text. -/
theorem base16_end (hfit : 2 * x.length < outsize) (out : Mem QByte) :
    (if outsize > 2 * x.length then out.store 0 0 else out).blit 0 (encode16 x) (2 * x.length) =
      if x = [] then 0 else out (2 * x.length) := by
  rw [if_pos hfit, blit_apply_ge _ _ (by rw [length_encode16]; omega)]
  split
  · rename_i hx
    rw [hx]
    exact store_self ..
  · rename_i hx
    have := length_pos_iff.2 hx
    exact if_neg (by omega)

theorem inverts16 (hend : outsize ≤ 2 * x.length ∨ x = [] ∨ out (2 * x.length) = 0)
    (h : base16EncodeBlock x out outsize = some (text, k)) (dst : Mem QByte)
    (hsize : size = x.length ∨ x.length < size ∧ 2 * x.length < outsize) :
    base16DecodeBlock text dst size = some (dst.blit 0 x, x.length) := by
  have hfit : 2 * x.length ≤ outsize := by
    by_contra hlt
    rw [base16EncodeBlock_eq_none (not_le.1 hlt)] at h
    cases h
  rw [base16EncodeBlock_eq hfit] at h
  obtain ⟨rfl, rfl⟩ := Prod.mk.inj (some.inj h)
  have hslice := slice_blit_self (if outsize > 2 * x.length then out.store 0 0 else out) 0 (encode16 x)
  rw [length_encode16] at hslice
  refine (base16DecodeLoop_encode16 hslice (by omega) (fun hlt => ?_) (by omega)).trans ?_
  · have hroom : 2 * x.length < outsize := by omega
    have hzero : (if x = [] then (0 : QByte) else out (2 * x.length)) = 0 := by
      rcases hend with h | h | h
      · omega
      · exact if_pos h
      · rw [h, ite_self]
    rw [Nat.zero_add, base16_end hroom, hzero]
    decide
  · rw [Nat.zero_add]

end Kept

/-- The codecs keep what they promise exactly where the text in base 16 fits, and lies before a zero that
was there already. -/
theorem kept_iff (x : List QByte) (out : Mem QByte) (outsize : ℕ) :
    Kept x out outsize ↔
      2 * x.length ≤ outsize ∧ (outsize ≤ 2 * x.length ∨ x = [] ∨ out (2 * x.length) = 0) := by
  constructor
  · intro h
    obtain ⟨text, k, hrun, hzero⟩ := h.terminated16
    have hfit : 2 * x.length ≤ outsize := by
      by_contra hlt
      rw [base16EncodeBlock_eq_none (not_le.1 hlt)] at hrun
      cases hrun
    refine ⟨hfit, ?_⟩
    by_contra hend
    rw [not_or, not_or] at hend
    rw [base16EncodeBlock_eq hfit] at hrun
    obtain ⟨rfl, rfl⟩ := Prod.mk.inj (Option.some.inj hrun)
    have hlast := hzero (not_le.1 hend.1)
    rw [base16_end (not_le.1 hend.1), if_neg hend.2.1] at hlast
    exact hend.2.2 hlast
  · rintro ⟨hfit, hend⟩
    refine ⟨⟨_, _, encodeBlock_eq .., fun hk => ?_⟩, ?_, ⟨_, _, base16EncodeBlock_eq hfit out, fun hk => ?_⟩,
      fun t dst size => ?_, fun t dst size => ?_, fun h hfit dst => inverts64 h hfit dst,
      fun h hfit dst => invertsURI h hfit dst,
      fun h dst => inverts16 hend h dst⟩
    · rw [if_neg (by omega), Mem.blit_append, Nat.zero_add]
      exact Mem.blit_apply_add _ _ [0] (i := 0) (by simp)
    · obtain ⟨out', hrun, hholds⟩ := encodeBlockURI_eq x out outsize
      refine ⟨_, _, hrun, fun hk => ?_⟩
      have hlast := (hholds (by omega)).apply_length
      rwa [Nat.zero_add] at hlast
    · rw [base16_end hk]
      rcases hend with h | h | h
      · omega
      · exact if_pos h
      · rw [h, ite_self]
    · obtain ⟨out', k, hrun⟩ := decodeLoop_isSome (Nat.zero_add size).le t dst
      rw [base64DecodeBlock, hrun]
      rfl
    · obtain ⟨out', k, hrun⟩ := base16DecodeLoop_isSome (Nat.zero_add size).le t 0 dst
      rw [base16DecodeBlock, hrun]
      rfl

/-- Two bytes in a buffer of three: the text has four characters, and the last of them is stored behind
the buffer. -/
theorem base16_overruns : ¬Kept [0xab, 0xcd] (fun _ => 0) 3 := by
  intro h
  obtain ⟨text, k, hrun, -⟩ := h.terminated16
  rw [base16EncodeBlock_eq_none (by decide)] at hrun
  cases hrun

end Base64

end FteQuake
