import FteQuake.Common.Sizebuf
import FteQuake.Lib.StreamDecoder
import FteQuake.Lib.Words

/-!
# The gunzip filter

`FS_GZ_Dec_Write` and `FS_GZ_Dec_Close` of `fs_zip.c`, for a filter that decompresses. `inflate` is a
decoder, and everything that is asked of it is `StreamDecoder.Correct`. The file that is written to
takes all it is given.

The filter keeps what it needs for a header or a trailer in `in`, from the start of `in` at every call,
so that a header or a trailer has to come in one call; and it does not reset `inflate` after the end of
a member. `gunzip_one` says that it does what it should for a single member whose header and trailer
come whole.
-/

namespace FteQuake

open StreamDecoder List

namespace GzDec

/-- `sizeof(in)` and `sizeof(out)`. -/
def bufSize : ℕ := 65536

/-- `vf_gz_dec_t`. `headerparsed` is 0 before the end of a header, 1 in the compressed data and 2 in the
trailer; `out` is what lies before `strm.next_out`, and `nextIn` is what `strm.next_in` has left. -/
structure Filter (σ : Type) where
  headerparsed : ℕ
  inbuf : Mem QByte
  inlen : ℕ
  out : List QByte
  strm : σ
  totalOut : ℕ
  nextIn : List QByte
  outfile : List QByte

/-! ## The header -/

/-- `GZ_FHCRC`. -/
def gzFhcrc : QByte := 2

/-- `GZ_FEXTRA`. -/
def gzFextra : QByte := 4

/-- `GZ_FNAME`. -/
def gzFname : QByte := 8

/-- `GZ_FCOMMENT`. -/
def gzFcomment : QByte := 16

/-- `GZ_RESERVED`. -/
def gzReserved : QByte := 32 ||| 64 ||| 128

/-- What the parse of a header ends with: an error, `noheader`, or the offset of what follows. -/
inductive Parsed
  | bad
  | more
  | done (ofs : ℕ)
  deriving DecidableEq, Repr

/-- The `GZ_FEXTRA` field. -/
def skipExtra (flags : QByte) (l : List QByte) (ofs : ℕ) : Option ℕ :=
  if flags &&& gzFextra = 0 then some ofs
  else
    match l.drop ofs with
    | lo :: hi :: _ =>
      let ex := lo.toNat + hi.toNat * 2 ^ 8
      if l.length < ofs + (2 + ex) then none else some (ofs + (2 + ex))
    | _ => none

/-- The loop over the characters of a string. -/
def skipChars : List QByte → ℕ → Option ℕ
  | [], _ => none
  | ch :: l, ofs => if ch = 0 then some (ofs + 1) else skipChars l (ofs + 1)

/-- The `GZ_FNAME` and the `GZ_FCOMMENT` field. -/
def skipString (flag flags : QByte) (l : List QByte) (ofs : ℕ) : Option ℕ :=
  if flags &&& flag = 0 then some ofs else skipChars (l.drop ofs) ofs

/-- The `GZ_FHCRC` field. -/
def skipHcrc (flags : QByte) (l : List QByte) (ofs : ℕ) : Option ℕ :=
  if flags &&& gzFhcrc = 0 then some ofs
  else if l.length < ofs + 2 then none
  else some (ofs + 2)

/-- The optional fields. -/
def skipFields (flags : QByte) (l : List QByte) : Option ℕ := do
  let ofs ← skipExtra flags l 10
  let ofs ← skipString gzFname flags l ofs
  let ofs ← skipString gzFcomment flags l ofs
  skipHcrc flags l ofs

/-- The parse of the bytes of a header that are there. -/
def parseHeader (l : List QByte) : Parsed :=
  match l with
  | ident1 :: ident2 :: cm :: flags :: _ :: _ :: _ :: _ :: _ :: _ :: _ =>
    if ident1 ≠ 0x1f ∨ ident2 ≠ 0x8b ∨ cm ≠ 8 ∨ flags &&& gzReserved ≠ 0 then .bad
    else
      match skipFields flags l with
      | some ofs => .done ofs
      | none => .more
  | _ => .more

/-! ## The code -/

variable {σ : Type} (D : Decoder σ QByte)

/-- `FS_GZ_WriteFilter`. -/
def start : Filter σ := ⟨0, fun _ => 0, 0, [], D.init, 0, [], []⟩

/-- `VFS_WRITE` of `out`. -/
def flush (n : Filter σ) : Filter σ := { n with outfile := n.outfile ++ n.out, out := [] }

/-- `qinflate` on what `strm` has. -/
def inflate (n : Filter σ) (finish : Bool) : Ret × Filter σ :=
  let r := D.run n.strm finish n.nextIn (bufSize - n.out.length)
  (r.ret,
    { n with
      out := n.out ++ r.out
      strm := r.next
      totalOut := n.totalOut + r.out.length
      nextIn := n.nextIn.drop r.used })

/-- `out` is written when it is full. -/
def drain (n : Filter σ) : Filter σ := if n.out.length = bufSize then flush n else n

mutual

/-- `FS_GZ_Dec_Write`, for so many calls and rounds of its loop inside each other. -/
def write : ℕ → Filter σ → List QByte → Option (ℤ × Filter σ)
  | 0, _, _ => none
  | fuel + 1, n, buffer =>
    if n.headerparsed ≠ 1 then
      let chunk := min buffer.length (bufSize - n.inlen)
      let n := { n with inbuf := n.inbuf.blit 0 (buffer.take chunk), inlen := n.inlen + chunk }
      if n.headerparsed = 2 then
        if 8 ≤ n.inlen then
          if n.totalOut ≠ n.inbuf.word 4 then some (-1, n)
          else
            (write fuel { n with headerparsed := 0, totalOut := 0, inlen := 0 }
              (n.inbuf.slice 8 (n.inlen - 8))).map fun r =>
                (if r.1 = ((n.inlen - 8 : ℕ) : ℤ) then (chunk : ℤ) else -1, r.2)
        else some (chunk, n)
      else
        match parseHeader (n.inbuf.slice 0 n.inlen) with
        | .bad => some (-1, n)
        | .more => some (if n.inlen = bufSize then -1 else buffer.length, n)
        | .done ofs =>
          (write fuel { n with headerparsed := 1 } (n.inbuf.slice ofs (n.inlen - ofs))).map fun r =>
            (if r.1 = ((n.inlen - ofs : ℕ) : ℤ) then (buffer.length : ℤ) else -1, r.2)
    else writeLoop fuel { n with nextIn := buffer } buffer.length

/-- The loop over the compressed data. -/
def writeLoop : ℕ → Filter σ → ℕ → Option (ℤ × Filter σ)
  | 0, _, _ => none
  | fuel + 1, n, len =>
    if n.nextIn = [] then some (len, n)
    else
      let r := inflate D n false
      let n := drain r.2
      match r.1 with
      | .ok => writeLoop fuel n len
      | .streamEnd =>
        (write fuel { flush n with headerparsed := 2, inlen := 0 } n.nextIn).map fun q =>
          (if q.1 = (n.nextIn.length : ℤ) then (len : ℤ) else -1, q.2)
      | .error => some (-1, flush n)

end

/-- `FS_GZ_Dec_Close`: what the file has been given by its end. -/
def close (n : Filter σ) : List QByte :=
  let n := (inflate D n true).2
  if n.out ≠ [] then (flush n).outfile else n.outfile

/-- Calls of `FS_GZ_Dec_Write` one after the other, with their results. -/
def writes (fuel : ℕ) : Filter σ → List (List QByte) → Option (List ℤ × Filter σ)
  | n, [] => some ([], n)
  | n, buffer :: calls => do
    let (ret, n) ← write D fuel n buffer
    let (rets, n) ← writes fuel n calls
    some (ret :: rets, n)

/-- The calls, and then `FS_GZ_Dec_Close`: the results, and what the output file was given. -/
def gunzip (fuel : ℕ) (calls : List (List QByte)) : Option (List ℤ × List QByte) :=
  (writes D fuel (start D) calls).map fun r => (r.1, close D r.2)

/-! ## Members -/

/-- The header of a member. -/
structure Header where
  ftext : Bool
  mtime : BitVec 32
  xflags : QByte
  os : QByte
  extra : Option (List QByte)
  fname : Option (List QByte)
  fcomment : Option (List QByte)
  fhcrc : Option (BitVec 16)
  extra_lt : ∀ ex ∈ extra, ex.length < 2 ^ 16
  fname_ne : ∀ s ∈ fname, ∀ ch ∈ s, ch ≠ 0
  fcomment_ne : ∀ s ∈ fcomment, ∀ ch ∈ s, ch ≠ 0

/-- The flags of a header. -/
def flagByte (ftext fhcrc fextra fname fcomment : Bool) : QByte :=
  (if ftext then 1 else 0) ||| (if fhcrc then gzFhcrc else 0) ||| (if fextra then gzFextra else 0) |||
    (if fname then gzFname else 0) ||| (if fcomment then gzFcomment else 0)

/-- The bytes of a field with a length. -/
def extraBytes : Option (List QByte) → List QByte
  | none => []
  | some ex => [BitVec.ofNat 8 ex.length, BitVec.ofNat 8 (ex.length / 2 ^ 8)] ++ ex

/-- The bytes of a string. -/
def stringBytes : Option (List QByte) → List QByte
  | none => []
  | some s => s ++ [0]

/-- The bytes of a checksum. -/
def hcrcBytes : Option (BitVec 16) → List QByte
  | none => []
  | some crc => [crc.setWidth 8, (crc >>> 8).setWidth 8]

namespace Header

variable (h : Header)

/-- The flags of a header. -/
def flags : QByte :=
  flagByte h.ftext h.fhcrc.isSome h.extra.isSome h.fname.isSome h.fcomment.isSome

/-- The bytes that every header has. -/
def fixed : List QByte := [0x1f, 0x8b, 8, h.flags] ++ Mem.wordBytes h.mtime.toNat ++ [h.xflags, h.os]

/-- The bytes of a header. -/
def bytes : List QByte :=
  h.fixed ++ (extraBytes h.extra ++ (stringBytes h.fname ++ (stringBytes h.fcomment ++
    hcrcBytes h.fhcrc)))

end Header

/-- A member of a gzip file. -/
structure Member where
  header : Header
  deflated : List QByte
  content : List QByte
  crc : BitVec 32

namespace Member

variable (m : Member)

/-- The checksum and the length. -/
def trailer : List QByte := Mem.wordBytes m.crc.toNat ++ Mem.wordBytes m.content.length

/-- The bytes of a member. -/
def bytes : List QByte := m.header.bytes ++ (m.deflated ++ m.trailer)

/-- The compressed data is that of the contents, and the header is below 64kb. -/
structure Valid (Decodes : List QByte → List QByte → Prop) : Prop where
  decodes : Decodes m.deflated m.content
  header_lt : m.header.bytes.length < bufSize

end Member

/-- Every call reports its length, and the file is given the contents. -/
def Gunzips (ms : List Member) (calls : List (List QByte)) : Prop :=
  ∃ k, ∀ fuel, k ≤ fuel →
    gunzip D fuel calls = some (calls.map fun c => (c.length : ℤ), ms.flatMap Member.content)

/-- No call ends strictly between two offsets. -/
def Uncut (calls : List (List QByte)) (a b : ℕ) : Prop :=
  ∀ pre suf, calls = pre ++ suf → pre.flatten.length ≤ a ∨ b ≤ pre.flatten.length

/-- The condition on a file of one member and on its cuts. -/
structure Whole (m : Member) (calls : List (List QByte)) : Prop where
  size : m.content.length < 2 ^ 32
  header : Uncut calls 0 m.header.bytes.length
  trailer : Uncut calls (m.header.bytes.length + m.deflated.length) m.bytes.length
  first : ∀ pre call suf, calls = pre ++ call :: suf → pre.flatten = [] → call.length ≤ bufSize

/-! ## The parse of a header -/

theorem flagByte_and (a b c d e : Bool) :
    (flagByte a b c d e &&& gzFhcrc = 0 ↔ b = false) ∧
    (flagByte a b c d e &&& gzFextra = 0 ↔ c = false) ∧
    (flagByte a b c d e &&& gzFname = 0 ↔ d = false) ∧
    (flagByte a b c d e &&& gzFcomment = 0 ↔ e = false) ∧
    flagByte a b c d e &&& gzReserved = 0 := by
  revert a b c d e
  decide

section Parse

variable {flags : QByte} {l rest : List QByte} {ofs : ℕ}

theorem skipExtra_eq {o : Option (List QByte)} (hlt : ∀ ex ∈ o, ex.length < 2 ^ 16)
    (hflag : flags &&& gzFextra = 0 ↔ o.isSome = false) (hl : l.drop ofs = extraBytes o ++ rest) :
    skipExtra flags l ofs = some (ofs + (extraBytes o).length) := by
  unfold skipExtra
  cases o with
  | none => rw [if_pos (hflag.2 rfl)]; rfl
  | some ex =>
    rw [if_neg (by rw [hflag]; simp), hl]
    have hex := hlt ex rfl
    have hlen : (BitVec.ofNat 8 ex.length).toNat + (BitVec.ofNat 8 (ex.length / 2 ^ 8)).toNat * 2 ^ 8 =
        ex.length := by
      simp only [BitVec.toNat_ofNat]
      omega
    have hsize := congrArg List.length hl
    simp only [extraBytes, length_drop, length_append, length_cons, length_nil] at hsize ⊢
    simp only [cons_append, nil_append, hlen]
    rw [if_neg (by omega)]

theorem skipChars_append (s : List QByte) (hs : ∀ ch ∈ s, ch ≠ 0) (rest : List QByte) (ofs : ℕ) :
    skipChars (s ++ 0 :: rest) ofs = some (ofs + (s.length + 1)) := by
  induction s generalizing ofs with
  | nil => simp [skipChars]
  | cons ch s ih =>
    rw [cons_append, skipChars, if_neg (hs ch mem_cons_self), ih fun c hc => hs c (mem_cons_of_mem _ hc), length_cons]
    congr 1
    omega

theorem skipString_eq {flag : QByte} {o : Option (List QByte)} (hne : ∀ s ∈ o, ∀ ch ∈ s, ch ≠ 0)
    (hflag : flags &&& flag = 0 ↔ o.isSome = false) (hl : l.drop ofs = stringBytes o ++ rest) :
    skipString flag flags l ofs = some (ofs + (stringBytes o).length) := by
  unfold skipString
  cases o with
  | none => rw [if_pos (hflag.2 rfl)]; rfl
  | some s =>
    rw [if_neg (by rw [hflag]; simp), hl]
    simp only [stringBytes, append_assoc, singleton_append, length_append, length_singleton]
    exact skipChars_append s (hne s rfl) rest ofs

theorem skipHcrc_eq {o : Option (BitVec 16)} (hflag : flags &&& gzFhcrc = 0 ↔ o.isSome = false)
    (hl : l.drop ofs = hcrcBytes o ++ rest) :
    skipHcrc flags l ofs = some (ofs + (hcrcBytes o).length) := by
  unfold skipHcrc
  cases o with
  | none => rw [if_pos (hflag.2 rfl)]; rfl
  | some crc =>
    have hsize := congrArg List.length hl
    simp only [hcrcBytes, length_drop, length_append, length_cons, length_nil] at hsize ⊢
    rw [if_neg (by rw [hflag]; simp), if_neg (by omega)]

/-- The rest of a list, one piece further on. -/
theorem drop_add_of_drop {xs ys : List QByte} (h : l.drop ofs = xs ++ ys) :
    l.drop (ofs + xs.length) = ys := by
  rw [← drop_drop, h, drop_left]

end Parse

theorem Header.flags_and (h : Header) :
    (h.flags &&& gzFhcrc = 0 ↔ h.fhcrc.isSome = false) ∧
    (h.flags &&& gzFextra = 0 ↔ h.extra.isSome = false) ∧
    (h.flags &&& gzFname = 0 ↔ h.fname.isSome = false) ∧
    (h.flags &&& gzFcomment = 0 ↔ h.fcomment.isSome = false) ∧ h.flags &&& gzReserved = 0 :=
  flagByte_and _ _ _ _ _

theorem Header.skipFields_eq (h : Header) (rest : List QByte) :
    skipFields h.flags (h.bytes ++ rest) = some h.bytes.length := by
  obtain ⟨hhcrc, hextra, hname, hcomment, -⟩ := h.flags_and
  have hfixed : (h.bytes ++ rest).drop 10 = extraBytes h.extra ++ (stringBytes h.fname ++
      (stringBytes h.fcomment ++ (hcrcBytes h.fhcrc ++ rest))) := by
    simp [Header.bytes, Header.fixed, Mem.wordBytes]
  have h1 := drop_add_of_drop hfixed
  have h2 := drop_add_of_drop h1
  have h3 := drop_add_of_drop h2
  have hlen : h.bytes.length = 10 + (extraBytes h.extra).length + (stringBytes h.fname).length +
      (stringBytes h.fcomment).length + (hcrcBytes h.fhcrc).length := by
    simp [Header.bytes, Header.fixed, Mem.wordBytes]
    omega
  unfold skipFields
  simp only [Option.bind_eq_bind]
  rw [skipExtra_eq h.extra_lt hextra hfixed, Option.bind_some, skipString_eq h.fname_ne hname h1, Option.bind_some,
    skipString_eq h.fcomment_ne hcomment h2, Option.bind_some, skipHcrc_eq hhcrc h3, hlen]

/-- A header is parsed to its end, whatever comes after it. -/
theorem Header.parse_eq (h : Header) (rest : List QByte) :
    parseHeader (h.bytes ++ rest) = .done h.bytes.length := by
  have hskip := h.skipFields_eq rest
  have hreserved := h.flags_and.2.2.2.2
  have hcons : ∃ tail, h.bytes ++ rest = 0x1f :: 0x8b :: 8 :: h.flags :: tail ∧
      ∃ a b c d e f t, tail = a :: b :: c :: d :: e :: f :: t :=
    ⟨_, rfl, _, _, _, _, _, _, _, rfl⟩
  obtain ⟨tail, hl, a, b, c, d, e, f, t, rfl⟩ := hcons
  rw [hl] at hskip ⊢
  simp only [parseHeader, hskip]
  rw [if_neg]
  simpa using hreserved

/-! ## States of a filter -/

/-- The results of a function of the fuel, from some fuel on. -/
def Returns {α : Type} (f : ℕ → Option α) (r : α) : Prop := ∃ k, ∀ fuel, k ≤ fuel → f fuel = some r

theorem Returns.of_succ {α : Type} {f g : ℕ → Option α} {r : α} (h : ∀ fuel, f (fuel + 1) = g fuel)
    (hg : Returns g r) : Returns f r := by
  obtain ⟨k, hk⟩ := hg
  refine ⟨k + 1, fun fuel hfuel => ?_⟩
  obtain ⟨j, rfl⟩ := Nat.exists_eq_add_of_le' hfuel
  rw [← Nat.add_assoc, h, hk _ (Nat.le_add_left k j)]

theorem Returns.map {α β : Type} {f : ℕ → Option α} {r : α} (hf : Returns f r) (g : α → β) :
    Returns (fun fuel => (f fuel).map g) (g r) := by
  obtain ⟨k, hk⟩ := hf
  exact ⟨k, fun fuel hfuel => by simp only [hk fuel hfuel, Option.map_some]⟩

/-- What a function returns is unique. -/
theorem Returns.unique {α : Type} {f : ℕ → Option α} {r r' : α} (h : Returns f r) (h' : Returns f r') :
    r = r' := by
  obtain ⟨k, hk⟩ := h
  obtain ⟨k', hk'⟩ := h'
  exact Option.some.inj ((hk _ (le_max_left k k')).symm.trans (hk' _ (le_max_right k k')))

theorem Returns.const {α : Type} (r : α) : Returns (fun _ => some r) r := ⟨0, fun _ _ => rfl⟩

section States

variable (m : Member)

/-- A filter that has seen nothing. -/
structure Fresh (n : Filter σ) : Prop where
  headerparsed : n.headerparsed = 0
  inlen : n.inlen = 0
  out : n.out = []
  outfile : n.outfile = []
  strm : n.strm = D.init
  totalOut : n.totalOut = 0

/-- A filter that has seen the part `x` of the compressed data. -/
structure InBody (n : Filter σ) (x : List QByte) : Prop where
  headerparsed : n.headerparsed = 1
  fed : Fed D n.strm x (n.outfile ++ n.out)
  used : x <+: m.deflated
  totalOut : n.totalOut = (n.outfile ++ n.out).length
  room : n.out.length < bufSize

/-- A filter that has written the contents, in a state of its header or its trailer. -/
structure Written (n : Filter σ) (headerparsed : ℕ) : Prop where
  headerparsed : n.headerparsed = headerparsed
  inlen : n.inlen = 0
  out : n.out = []
  outfile : n.outfile = m.content
  ended : ∀ f i room, D.run n.strm f i room = ⟨.streamEnd, 0, [], n.strm⟩

/-- A filter after the part `z` of what follows the header. -/
inductive After (n : Filter σ) (z : List QByte) : Prop
  | body (h : InBody D m n z)
  | trailer (h : Written D m n 2) (hz : z = m.deflated) (htotal : n.totalOut = m.content.length)
  | done (h : Written D m n 0) (hz : z = m.deflated ++ m.trailer)

end States

variable {D} {m : Member} {n : Filter σ} {x : List QByte} {Decodes : List QByte → List QByte → Prop}

@[simp] theorem length_trailer (m : Member) : m.trailer.length = 8 := rfl

theorem drain_fields (n : Filter σ) : (drain n).headerparsed = n.headerparsed ∧
    (drain n).strm = n.strm ∧ (drain n).totalOut = n.totalOut ∧ (drain n).nextIn = n.nextIn ∧
    (drain n).outfile ++ (drain n).out = n.outfile ++ n.out ∧
    (n.out.length ≤ bufSize → (drain n).out.length < bufSize) := by
  unfold drain
  split
  · exact ⟨rfl, rfl, rfl, rfl, by simp [flush], fun _ => by simp [flush, bufSize]⟩
  · exact ⟨rfl, rfl, rfl, rfl, rfl, fun h => by omega⟩

/-- A header that has not begun stays so. -/
theorem write_nil_of_header (hp : n.headerparsed = 0) (hin : n.inlen = 0) :
    Returns (fun fuel => write D fuel n []) (0, n) := by
  obtain ⟨headerparsed, inbuf, inlen, out, strm, totalOut, nextIn, outfile⟩ := n
  subst hp hin
  refine .of_succ (fun fuel => ?_) (.const _)
  simp [write, parseHeader, bufSize]

theorem write_nil_of_trailer (hp : n.headerparsed = 2) (hin : n.inlen = 0) :
    Returns (fun fuel => write D fuel n []) (0, n) := by
  obtain ⟨headerparsed, inbuf, inlen, out, strm, totalOut, nextIn, outfile⟩ := n
  subst hp hin
  refine .of_succ (fun fuel => ?_) (.const _)
  simp [write]

/-- The length of the contents, where the trailer was put. -/
theorem word_blit_trailer (mem : Mem QByte) (hsize : m.content.length < 2 ^ 32) :
    (mem.blit 0 m.trailer).word 4 = m.content.length := by
  rw [Member.trailer, Mem.blit_append]
  exact Mem.word_setWord_self _ 4 hsize

theorem Written.write_trailer (h : Written D m n 2) (htotal : n.totalOut = m.content.length)
    (hsize : m.content.length < 2 ^ 32) : ∃ n', Returns (fun fuel => write D fuel n m.trailer) (8, n') ∧
      Written D m n' 0 := by
  have hnil := write_nil_of_header (D := D) (n := { n with
    inbuf := n.inbuf.blit 0 m.trailer, inlen := 0, headerparsed := 0, totalOut := 0 }) rfl rfl
  refine ⟨_, .of_succ (fun fuel => ?_) (hnil.map fun r => (if r.1 = 0 then 8 else -1, r.2)),
    rfl, rfl, h.out, h.outfile, h.ended⟩
  have htake : m.trailer.take 8 = m.trailer := take_of_length_le (length_trailer m).le
  simp [write, h.headerparsed, h.inlen, bufSize, htake, htotal, word_blit_trailer _ hsize]

theorem writeLoop_nil (hnil : n.nextIn = []) (len : ℕ) :
    Returns (fun fuel => writeLoop D fuel n len) (len, n) :=
  .of_succ (fun fuel => by rw [writeLoop, if_pos hnil]) (.const _)

/-- The part of the file that a call in the compressed data can hold. -/
def Follows (m : Member) (x i : List QByte) : Prop :=
  x ++ i <+: m.deflated ∨ x ++ i = m.deflated ++ m.trailer

/-- The loop over the compressed data takes all it is given. The induction is on the contents that are
still to come: a round that does not use up its input fills `out`. -/
theorem writeLoop_body (hD : Correct D Decodes) (hm : m.Valid Decodes) (hsize : m.content.length < 2 ^ 32) (len b : ℕ)
    (hbody : InBody D m n x) (hrest : Follows m x n.nextIn) (hb : m.content.length - (n.outfile ++ n.out).length ≤ b) :
    ∃ n', Returns (fun fuel => writeLoop D fuel n len) (len, n') ∧ After D m n' (x ++ n.nextIn) := by
  induction b using Nat.strong_induction_on generalizing n x with
  | _ b ih =>
  by_cases hnil : n.nextIn = []
  · refine ⟨n, writeLoop_nil hnil len, .body ?_⟩
    rwa [hnil, append_nil]
  have hloop : ∀ fuel, writeLoop D (fuel + 1) n len = match (inflate D n false).1 with
      | .ok => writeLoop D fuel (drain (inflate D n false).2) len
      | .streamEnd =>
        (write D fuel { flush (drain (inflate D n false).2) with headerparsed := 2, inlen := 0 }
          (drain (inflate D n false).2).nextIn).map fun q =>
          (if q.1 = ((drain (inflate D n false).2).nextIn.length : ℤ) then (len : ℤ) else -1, q.2)
      | .error => some (-1, flush (drain (inflate D n false).2)) := by
    intro fuel
    rw [writeLoop, if_neg hnil]
  have hcomp : x ++ n.nextIn <+: m.deflated ∨ m.deflated <+: x ++ n.nextIn :=
    hrest.imp_right fun (h : x ++ n.nextIn = _) => ⟨m.trailer, h.symm⟩
  have hroom := hbody.room
  have hfed := hD.feed hm.decodes hbody.fed hbody.used hcomp hnil (Nat.sub_pos_of_lt hroom)
  have hstep := Fed.run (D := D) n.nextIn (bufSize - n.out.length) (y := n.outfile ++ n.out) (x := x) (s := n.strm)
  generalize hrun : D.run n.strm false n.nextIn (bufSize - n.out.length) = r at hfed hstep
  have hinflate : inflate D n false = (r.ret, { n with
      out := n.out ++ r.out
      strm := r.next
      totalOut := n.totalOut + r.out.length
      nextIn := n.nextIn.drop r.used }) := by rw [inflate, hrun]
  obtain ⟨hp', hstrm', htotal', hnext', hout', hroom'⟩ := drain_fields (inflate D n false).2
  have hn' : r.out.length ≤ bufSize - n.out.length → r.ret = .ok → x ++ n.nextIn.take r.used <+: m.deflated →
      InBody D m (drain (inflate D n false).2) (x ++ n.nextIn.take r.used) := by
    intro hlen hret hused
    rw [hinflate] at hp' hstrm' htotal' hout' hroom' ⊢
    constructor
    · exact hp'.trans hbody.headerparsed
    · rw [hstrm', hout', ← append_assoc]
      exact hstep hret hbody.fed
    · exact hused
    · rw [htotal', hout']
      simp only [hbody.totalOut, length_append]
      omega
    · refine hroom' ?_
      simp only [length_append]
      omega
  have hlen' : (n.outfile ++ (n.out ++ r.out)).length = (n.outfile ++ n.out).length + r.out.length := by
    rw [← append_assoc, length_append]
  rw [hinflate] at hloop hnext' hout' hp' hstrm' htotal' hn'
  dsimp only at hloop hnext' hout' hp' hstrm' htotal' hn'
  cases hfed with
  | hungry out s hx hy hn =>
    -- all input is used: one more look at it ends the loop
    rw [take_length] at hn'
    exact ⟨_, .of_succ hloop (writeLoop_nil (hnext'.trans drop_length) len), .body (hn' hn rfl hx)⟩
  | full used out s hx hy hn =>
    have hbody' := hn' hn.le rfl hx
    have hmore : m.content.length - (n.outfile ++ (n.out ++ out)).length < b := by
      have hle := hy.length_le
      rw [length_append] at hle
      rw [← append_assoc, length_append]
      omega
    have hjoin : x ++ n.nextIn.take used ++ n.nextIn.drop used = x ++ n.nextIn := by
      rw [append_assoc, take_append_drop]
    obtain ⟨n', hret, hafter⟩ := ih _ hmore hbody' (by rwa [Follows, hnext', hjoin]) (by rw [hout'])
    rw [hnext', hjoin] at hafter
    exact ⟨n', .of_succ hloop hret, hafter⟩
  | ended used out s hx hy hn =>
    have hended := hD.ended (s := n.strm) (f := false) (i := n.nextIn) (n := bufSize - n.out.length) (by rw [hrun])
    rw [hrun] at hended
    dsimp only at hended
    have hcontent : n.outfile ++ (n.out ++ out) = m.content := by rw [← append_assoc, hy]
    have hjoin : x ++ n.nextIn = m.deflated ++ n.nextIn.drop used := by
      rw [← hx, append_assoc, take_append_drop]
    generalize hn1 : drain _ = n1 at hloop hnext' hout' hp' hstrm' htotal'
    have hwritten : Written D m { flush n1 with headerparsed := 2, inlen := 0 } 2 :=
      ⟨rfl, rfl, rfl, hout'.trans hcontent, fun f i room => by
        simp only [flush, hstrm']
        exact hended f i room⟩
    have htotal2 : n1.totalOut = m.content.length := by
      rw [htotal', hbody.totalOut, ← hy]
      simp only [length_append]
    have hleft : n.nextIn.drop used = [] ∨ n.nextIn.drop used = m.trailer := by
      rw [Follows, hjoin] at hrest
      refine hrest.imp (fun h => ?_) append_cancel_left
      have hle := h.length_le
      rw [length_append] at hle
      exact eq_nil_of_length_eq_zero (by omega)
    rw [hjoin]
    rcases hleft with hleft | hleft
    · have hret := write_nil_of_trailer (D := D) hwritten.headerparsed hwritten.inlen
      refine ⟨_, .of_succ hloop ?_, .trailer hwritten (by rw [hleft, append_nil]) htotal2⟩
      have hmap := hret.map fun q => (if q.1 = (n1.nextIn.length : ℤ) then (len : ℤ) else -1, q.2)
      rw [hnext', hleft] at hmap ⊢
      simpa using hmap
    · obtain ⟨n', hret, hdone⟩ := hwritten.write_trailer htotal2 hsize
      refine ⟨n', .of_succ hloop ?_, .done hdone (by rw [hleft])⟩
      have hmap := hret.map fun q => (if q.1 = (n1.nextIn.length : ℤ) then (len : ℤ) else -1, q.2)
      rw [hnext', hleft] at hmap ⊢
      simpa using hmap

theorem writeLoop_call (hD : Correct D Decodes) (hm : m.Valid Decodes) (hsize : m.content.length < 2 ^ 32)
    (hbody : InBody D m n x) {i : List QByte} (hrest : Follows m x i) :
    ∃ n', Returns (fun fuel => write D fuel n i) (i.length, n') ∧ After D m n' (x ++ i) := by
  have hbody' : InBody D m { n with nextIn := i } x :=
    ⟨hbody.headerparsed, hbody.fed, hbody.used, hbody.totalOut, hbody.room⟩
  obtain ⟨n', hret, hafter⟩ := writeLoop_body hD hm hsize i.length _ hbody' hrest le_rfl
  refine ⟨n', .of_succ (fun fuel => ?_) hret, hafter⟩
  rw [write, if_neg (by rw [hbody.headerparsed]; exact not_not.2 rfl)]

/-- The call that brings the header. -/
theorem Fresh.write_header (hD : Correct D Decodes) (hm : m.Valid Decodes) (hsize : m.content.length < 2 ^ 32)
    (h : Fresh D n) {b : List QByte} (hrest : Follows m [] b) (hlen : (m.header.bytes ++ b).length ≤ bufSize) :
    ∃ n', Returns (fun fuel => write D fuel n (m.header.bytes ++ b))
      ((m.header.bytes ++ b).length, n') ∧ After D m n' b := by
  have hbody : InBody D m { n with
      inbuf := n.inbuf.blit 0 (m.header.bytes ++ b)
      inlen := (m.header.bytes ++ b).length
      headerparsed := 1 } [] := by
    refine ⟨rfl, ?_, nil_prefix, ?_, ?_⟩
    · simpa only [h.strm, h.out, h.outfile, append_nil] using Fed.init
    · simp [h.totalOut, h.out, h.outfile]
    · simp [h.out, bufSize]
  obtain ⟨n', hret, hafter⟩ := writeLoop_call hD hm hsize hbody hrest
  rw [nil_append] at hafter
  have hmap := hret.map fun r =>
    (if r.1 = (b.length : ℤ) then ((m.header.bytes ++ b).length : ℤ) else -1, r.2)
  rw [if_pos rfl] at hmap
  refine ⟨n', .of_succ (fun fuel => ?_) hmap, hafter⟩
  generalize hcall : m.header.bytes ++ b = call at hlen
  have hslice : (n.inbuf.blit 0 call).slice 0 call.length = call := Mem.slice_blit_self _ 0 call
  have hbytes : (n.inbuf.blit 0 call).slice m.header.bytes.length b.length = b := by
    have hdrop := Mem.drop_slice (n.inbuf.blit 0 call) 0 call.length m.header.bytes.length
    rw [hslice, Nat.zero_add, ← hcall, drop_left, length_append, Nat.add_sub_cancel_left, hcall] at hdrop
    exact hdrop.symm
  have hparse := m.header.parse_eq b
  have hrest : call.length - m.header.bytes.length = b.length := by
    rw [← hcall, length_append, Nat.add_sub_cancel_left]
  rw [hcall] at hparse
  simp only [write, h.headerparsed, h.inlen, Nat.sub_zero, Nat.min_eq_left hlen, take_length,
    Nat.zero_add, hslice, hparse, hrest, hbytes]
  rfl

/-! ## Runs -/

/-- A filter after the first `k` bytes of a member. -/
def At (D : Decoder σ QByte) (m : Member) (n : Filter σ) (k : ℕ) : Prop :=
  (k = 0 ∧ Fresh D n) ∨ ∃ z, k = m.header.bytes.length + z.length ∧ z <+: m.deflated ++ m.trailer ∧
    After D m n z

theorem After.prefix {z : List QByte} (h : After D m n z) : z <+: m.deflated ++ m.trailer := by
  cases h with
  | body h => exact h.used.trans (prefix_append _ _)
  | trailer h hz => exact hz ▸ prefix_append _ _
  | done h hz => exact hz ▸ prefix_refl _

/-- One call. The bounds say where it may end. -/
theorem At.write (hD : Correct D Decodes) (hm : m.Valid Decodes) (hsize : m.content.length < 2 ^ 32)
    {pre call suf : List QByte} (hbytes : m.bytes = pre ++ (call ++ suf)) (h : At D m n pre.length)
    (hheader : (pre ++ call).length ≤ 0 ∨ m.header.bytes.length ≤ (pre ++ call).length)
    (htrailer : (pre ++ call).length ≤ m.header.bytes.length + m.deflated.length ∨
      m.bytes.length ≤ (pre ++ call).length)
    (hfirst : pre = [] → call.length ≤ bufSize) :
    ∃ n', Returns (fun fuel => GzDec.write D fuel n call) (call.length, n') ∧
      At D m n' (pre ++ call).length := by
  have htotal : m.bytes.length = m.header.bytes.length + (m.deflated ++ m.trailer).length := by
    rw [Member.bytes, length_append]
  -- what a call that goes on from `z` holds
  have hfollows : ∀ z i, z ++ (i ++ suf) = m.deflated ++ m.trailer →
      (pre ++ call).length = m.header.bytes.length + (z ++ i).length → Follows m z i := by
    intro z i hsplit hlen
    rw [← append_assoc] at hsplit
    rcases htrailer with hle | hge
    · refine .inl (prefix_of_prefix_length_le ⟨suf, hsplit⟩ (prefix_append _ _) (by omega))
    · have hlen' := congrArg List.length hsplit
      rw [length_append] at hlen'
      have hsuf : suf = [] := eq_nil_of_length_eq_zero (by omega)
      rw [hsuf, append_nil] at hsplit
      exact .inr hsplit
  rcases h with ⟨hzero, hfresh⟩ | ⟨z, hlen, -, hafter⟩
  · obtain rfl := eq_nil_of_length_eq_zero hzero
    rw [nil_append] at hheader hbytes hfollows ⊢
    rcases hheader with hle | hge
    · obtain rfl := eq_nil_of_length_eq_zero (Nat.le_zero.1 hle)
      exact ⟨n, write_nil_of_header hfresh.headerparsed hfresh.inlen, .inl ⟨rfl, hfresh⟩⟩
    · have hsplit := hbytes
      rw [Member.bytes] at hsplit
      obtain ⟨b, rfl⟩ := prefix_of_prefix_length_le ⟨_, hsplit⟩ ⟨_, rfl⟩ hge
      rw [append_assoc, append_cancel_left_eq] at hsplit
      obtain ⟨n', hret, hafter⟩ := hfresh.write_header hD hm hsize
        (hfollows [] b hsplit.symm (length_append)) (hfirst rfl)
      exact ⟨n', hret, .inr ⟨b, length_append, hafter.prefix, hafter⟩⟩
  · have hpre : pre = m.header.bytes ++ z ∧ call ++ suf = (m.deflated ++ m.trailer).drop z.length := by
      obtain ⟨w, hw⟩ := hafter.prefix
      have hb : m.header.bytes ++ z ++ w = pre ++ (call ++ suf) := by
        rw [← hbytes, Member.bytes, ← hw, append_assoc]
      obtain ⟨hl, hr⟩ := append_inj hb (by rw [length_append, hlen])
      rw [← hw, drop_left]
      exact ⟨hl.symm, hr.symm⟩
    have hsplit : z ++ (call ++ suf) = m.deflated ++ m.trailer := by
      obtain ⟨w, hw⟩ := hafter.prefix
      rw [hpre.2, ← hw, drop_left]
    have hnext : (pre ++ call).length = m.header.bytes.length + (z ++ call).length := by
      rw [length_append, hlen, length_append]
      omega
    have hcall := hfollows z call hsplit hnext
    suffices hgoal : ∃ n', Returns (fun fuel => GzDec.write D fuel n call) (call.length, n') ∧
        After D m n' (z ++ call) by
      obtain ⟨n', hret, hafter'⟩ := hgoal
      exact ⟨n', hret, .inr ⟨z ++ call, hnext, hafter'.prefix, hafter'⟩⟩
    cases hafter with
    | body hbody => exact writeLoop_call hD hm hsize hbody hcall
    | trailer hw hz hlength =>
      subst hz
      rcases hcall with hpref | hall
      · have hle := hpref.length_le
        rw [length_append] at hle
        obtain rfl : call = [] := eq_nil_of_length_eq_zero (by omega)
        exact ⟨n, write_nil_of_trailer hw.headerparsed hw.inlen, .trailer hw (append_nil _) hlength⟩
      · obtain rfl := append_cancel_left hall
        obtain ⟨n', hret, hdone⟩ := hw.write_trailer hlength hsize
        exact ⟨n', hret, .done hdone rfl⟩
    | done hw hz =>
      have hnil : call = [] := by
        have hle := congrArg List.length hsplit
        rw [length_append, ← hz, length_append] at hle
        exact eq_nil_of_length_eq_zero (by omega)
      subst hnil
      exact ⟨n, write_nil_of_header hw.headerparsed hw.inlen, .done hw (by rw [append_nil, hz])⟩

theorem Returns.bind {α β : Type} {f : ℕ → Option α} {g : ℕ → α → Option β} {r : α} {r' : β}
    (hf : Returns f r) (hg : Returns (fun fuel => g fuel r) r') :
    Returns (fun fuel => (f fuel).bind (g fuel)) r' := by
  obtain ⟨k, hk⟩ := hf
  obtain ⟨k', hk'⟩ := hg
  refine ⟨max k k', fun fuel hfuel => ?_⟩
  simp only [hk fuel (le_of_max_le_left hfuel), Option.bind_some]
  exact hk' fuel (le_of_max_le_right hfuel)

theorem At.writes (hD : Correct D Decodes) (hm : m.Valid Decodes) {calls : List (List QByte)}
    (hcalls : calls.flatten = m.bytes) (h : Whole m calls) (pre suf : List (List QByte))
    (hsplit : calls = pre ++ suf) (hat : At D m n pre.flatten.length) :
    ∃ n', Returns (fun fuel => GzDec.writes D fuel n suf) (suf.map fun c => (c.length : ℤ), n') ∧
      At D m n' m.bytes.length := by
  induction suf generalizing pre n with
  | nil =>
    rw [append_nil] at hsplit
    rw [← hsplit, hcalls] at hat
    exact ⟨n, .const _, hat⟩
  | cons call suf ih =>
    have hnext : calls = (pre ++ [call]) ++ suf := by rw [hsplit, append_assoc]; rfl
    have hflat : (pre ++ [call]).flatten = pre.flatten ++ call := by simp
    have hbytes : m.bytes = pre.flatten ++ (call ++ suf.flatten) := by
      rw [← hcalls, hsplit, flatten_append, flatten_cons]
    have hheader := h.header _ _ hnext
    have htrailer := h.trailer _ _ hnext
    rw [hflat] at hheader htrailer
    obtain ⟨n₁, hret, hat'⟩ := hat.write hD hm h.size hbytes hheader htrailer (h.first pre call suf hsplit)
    rw [← hflat] at hat'
    obtain ⟨n₂, hrets, hend⟩ := ih (pre ++ [call]) hnext hat'
    refine ⟨n₂, ?_, hend⟩
    exact hret.bind (hrets.bind (.const _))

theorem Written.close (h : Written D m n 0) : close D n = m.content := by
  simp [GzDec.close, inflate, h.ended, h.out, h.outfile]

/-- **A member whose header and trailer come whole is gunzipped**, however the rest of it is cut. -/
theorem gunzip_one (D : Decoder σ QByte) (Decodes : List QByte → List QByte → Prop)
    (hD : Correct D Decodes) (m : Member) (hm : m.Valid Decodes) (calls : List (List QByte))
    (hcalls : calls.flatten = m.bytes) (h : Whole m calls) : Gunzips D [m] calls := by
  have hfresh : At D m (start D) ([] : List (List QByte)).flatten.length :=
    .inl ⟨rfl, rfl, rfl, rfl, rfl, rfl, rfl⟩
  obtain ⟨n, hret, hat⟩ := hfresh.writes hD hm hcalls h [] calls rfl
  have hdone : Written D m n 0 := by
    have htotal : m.bytes.length = m.header.bytes.length + (m.deflated.length + 8) := by
      rw [Member.bytes, List.length_append, List.length_append, length_trailer]
    rcases hat with ⟨hzero, -⟩ | ⟨z, hlen, -, hafter⟩
    · omega
    · cases hafter with
      | body hbody =>
        have hle := hbody.used.length_le
        omega
      | trailer hw hz =>
        rw [hz] at hlen
        omega
      | done hw => exact hw
  obtain ⟨k, hk⟩ := hret
  refine ⟨k, fun fuel hfuel => ?_⟩
  simp only [gunzip, hk fuel hfuel, Option.map_some, hdone.close, List.flatMap_cons,
    List.flatMap_nil, List.append_nil]

theorem Uncut.of_take {calls : List (List QByte)} {a b : ℕ}
    (h : ∀ k < calls.length + 1, (calls.take k).flatten.length ≤ a ∨
      b ≤ (calls.take k).flatten.length) : Uncut calls a b := by
  rintro pre suf rfl
  have hlt : pre.length < (pre ++ suf).length + 1 := by
    rw [length_append]
    omega
  have hpre := h pre.length hlt
  rwa [take_left] at hpre

/-- A member with the letter `a`, not compressed. -/
def letter : Member where
  header := ⟨false, 0, 0, 3, none, none, none, none, by simp, by simp, by simp⟩
  deflated := [0x01, 0x01, 0x00, 0xfe, 0xff, 0x61]
  content := [0x61]
  crc := 0xe8b7be43

/-- The format of that one stream. -/
def LetterFormat (d c : List QByte) : Prop := d = letter.deflated ∧ c = letter.content

theorem valid_letter : letter.Valid LetterFormat := ⟨⟨rfl, rfl⟩, by decide⟩

theorem correct_letter : Correct (StreamDecoder.single letter.deflated letter.content) LetterFormat :=
  single_correct (by decide) (by decide)

/-- The compressed data is cut, the header and the trailer are not. -/
def letterCalls : List (List QByte) :=
  [letter.bytes.take 12, (letter.bytes.drop 12).take 4, letter.bytes.drop 16]

theorem gunzip_one_letter :
    Gunzips (StreamDecoder.single letter.deflated letter.content) [letter] letterCalls :=
  gunzip_one _ LetterFormat correct_letter letter valid_letter letterCalls (by decide)
    ⟨by decide, .of_take (by decide), .of_take (by decide), fun pre call suf hcalls _ => by
      have hmem : call ∈ letterCalls := by simp [hcalls]
      have hall : ∀ c ∈ letterCalls, c.length ≤ bufSize := by decide
      exact hall call hmem⟩

/-- The first byte of the header comes alone. -/
theorem gunzip_cut : ¬ ∀ (σ : Type) (D : Decoder σ QByte) (Decodes : List QByte → List QByte → Prop),
    Correct D Decodes → ∀ ms : List Member, ms ≠ [] → (∀ m ∈ ms, m.Valid Decodes) →
    ∀ calls, calls.flatten = ms.flatMap Member.bytes → Gunzips D ms calls := by
  intro h
  obtain ⟨k, hk⟩ := h _ _ LetterFormat correct_letter [letter] (by simp)
    (by simpa using valid_letter) [letter.bytes.take 1, letter.bytes.drop 1] (by decide)
  have hrun := hk (k + 1) (Nat.le_succ k)
  have hfail : ∃ out, gunzip (StreamDecoder.single letter.deflated letter.content) (k + 1)
      [letter.bytes.take 1, letter.bytes.drop 1] = some ([1, -1], out) := ⟨_, rfl⟩
  obtain ⟨out, hfail⟩ := hfail
  rw [hfail] at hrun
  have hrets : ([1, -1] : List ℤ) = _ := congrArg Prod.fst (Option.some.inj hrun)
  exact absurd hrets (by decide)

end GzDec

end FteQuake
