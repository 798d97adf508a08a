import FteQuake.Common.Sizebuf
import Mathlib.Data.List.Forall2

/-!
# Cleaning a file name

`FS_GetCleanPath` of `fs.c` copies a name into a buffer, with `\` turned into `/` and repeated
separators made one, and refuses names that could leave the directory they are put behind. Each
component is checked in the buffer when its separator is met, before one is stored behind it: the
scan over leading spaces, and in Windows builds the tests for reserved names, may go on into bytes
that nothing has written.

`scan` is the loop. It has no result where it reads or writes outside the buffer. `cleanText` is what
the loop is for, on lists; `scan_eq` says that the loop computes it as long as no component sends
the checks behind its end (`Overruns`).
-/

namespace FteQuake

open List Nat
open Option (some.inj bind_eq_bind bind_some)

namespace CleanPath

/-- `':'`. -/
def colon : QByte := 0x3a

/-- `'/'`. -/
def slash : QByte := 0x2f

/-- `' '`. -/
def space : QByte := 0x20

/-- `'.'`. -/
def dot : QByte := 0x2e

/-- `'\\'` and `'/'`. -/
def IsSep (c : QByte) : Prop := c = 0x5c ∨ c = slash

instance (c : QByte) : Decidable (IsSep c) := inferInstanceAs (Decidable (_ ∨ _))

/-! ## Reserved names -/

/-- A letter in either case. -/
def letter (c : QByte) : QByte → Bool := fun x => x = c ∨ x = c - 0x20

/-- A digit. -/
def digit : QByte → Bool := fun x => 0x30 ≤ x ∧ x ≤ 0x39

/-- `comX` and `lptX`. -/
def reserved4 : List (List (QByte → Bool)) :=
  [[letter 0x63, letter 0x6f, letter 0x6d, digit], [letter 0x6c, letter 0x70, letter 0x74, digit]]

/-- `con`, `prn` and `nul`. -/
def reserved3 : List (List (QByte → Bool)) :=
  [[letter 0x63, letter 0x6f, letter 0x6e], [letter 0x70, letter 0x72, letter 0x6e],
    [letter 0x6e, letter 0x75, letter 0x6c]]

/-- What a reserved name may be followed by. -/
def endsName (c : QByte) : Bool := c = space ∨ c = 0x09 ∨ c = dot

/-! ## The checks, in the buffer -/

section Buffer

variable (outlen : ℕ) (buf : Mem QByte)

/-- A read from the buffer. -/
def rd (i : ℕ) : Option QByte := if i < outlen then some (buf i) else none

/-- A write to the buffer. -/
def wr (i : ℕ) (c : QByte) : Option (Mem QByte) := if i < outlen then some (buf.store i c) else none

/-- The first byte from `seg` on that is no space; `room` bytes are left in the buffer. -/
def skipSpaces : ℕ → ℕ → Option ℕ
  | 0, _ => none
  | room + 1, seg => if buf seg = space then skipSpaces room (seg + 1) else some seg

/-- A chain of tests on the bytes from `i` on. -/
def matchAt : ℕ → List (QByte → Bool) → Option Bool
  | _, [] => some true
  | i, p :: ps => do
    let c ← rd outlen buf i
    if p c then matchAt (i + 1) ps else some false

/-- One chain of tests or another. -/
def matchAny (i : ℕ) : List (List (QByte → Bool)) → Option Bool
  | [] => some false
  | ps :: pss => do
    if ← matchAt outlen buf i ps then some true else matchAny i pss

/-- A reserved name of `n` bytes, with nothing behind it or what may be ignored. -/
def isReserved (names : List (List (QByte → Bool))) (n o seg : ℕ) : Option Bool := do
  if ← matchAny outlen buf seg names then
    if o = seg + n then some true else (rd outlen buf (seg + n)).map endsName
  else some false

/-- The checks at the end of a component from `seg` to `o`. -/
def segOk (win32 : Bool) (o seg : ℕ) : Option Bool := do
  let seg ← skipSpaces buf (outlen - seg) seg
  let c ← rd outlen buf seg
  if c = 0 then some false
  else if c = dot then
    if o = seg + 1 then some false else (rd outlen buf (seg + 1)).map fun _ => false
  else if win32 then do
    if ← isReserved outlen buf reserved4 4 o seg then some false
    else (isReserved outlen buf reserved3 3 o seg).map (!·)
  else some true

end Buffer

/-- The loop of `FS_GetCleanPath` from `*s` on. The inner option is the result: the buffer, and how
many bytes the text has. -/
def scan (win32 : Bool) (outlen : ℕ) : List QByte → (o seg : ℕ) → Mem QByte →
    Option (Option (Mem QByte × ℕ))
  | [], o, seg, buf =>
    if o = outlen then some none
    else if o = seg then
      if o = 0 then some none else (wr outlen buf o 0).map fun buf => some (buf, o)
    else do
      if ← segOk outlen buf win32 o seg then (wr outlen buf o 0).map fun buf => some (buf, o)
      else some none
  | c :: s, o, seg, buf =>
    if o = outlen then some none
    else if c = colon then some none
    else if IsSep c then
      if o = seg then
        if o = 0 then some none else scan win32 outlen s o seg buf
      else do
        if ← segOk outlen buf win32 o seg then
          let buf ← wr outlen buf o slash
          scan win32 outlen s (o + 1) (o + 1) buf
        else some none
    else do
      let buf ← wr outlen buf o c
      scan win32 outlen s (o + 1) seg buf

end CleanPath

open CleanPath in
/-- `FS_GetCleanPath`. The pattern is given up to its NUL. -/
def fsGetCleanPath (win32 : Bool) (pattern : List QByte) (outlen : ℕ) (outbuf : Mem QByte) :
    Option (Option (Mem QByte × ℕ)) :=
  if pattern = [] then some none else scan win32 outlen pattern 0 0 outbuf

namespace CleanPath

/-! ## What it is for -/

/-- A component without its leading spaces. -/
def trim (cur : List QByte) : List QByte := cur.dropWhile (· = space)

/-- A component begins with a reserved name of `n` bytes that ends there. -/
def Reserved (names : List (List (QByte → Bool))) (n : ℕ) (w : List QByte) : Prop :=
  (∃ ps ∈ names, List.Forall₂ (fun p c => p c = true) ps (w.take n)) ∧
    ∀ c, w[n]? = some c → endsName c

/-- A component that may be in a file name. -/
def Allowed (win32 : Bool) (cur : List QByte) : Prop :=
  trim cur ≠ [] ∧ (trim cur).head? ≠ some dot ∧
    (win32 → ¬Reserved reserved4 4 (trim cur) ∧ ¬Reserved reserved3 3 (trim cur))

/-- The checks of a component go on behind its end: it has only spaces, or in Windows builds it is
the beginning of a reserved name. -/
def Overruns (win32 : Bool) (cur : List QByte) : Prop :=
  trim cur = [] ∨ win32 ∧ ∃ ps ∈ reserved4 ++ reserved3, (trim cur).length < ps.length ∧
    List.Forall₂ (fun p c => p c = true) (ps.take (trim cur).length) (trim cur)

open Classical in
/-- The text of a name that is accepted: `pre` is the text of the components before, `cur` the
component so far, and `room` what the buffer has left. -/
noncomputable def cleanText (win32 : Bool) : ℕ → List QByte → List QByte → List QByte →
    Option (List QByte)
  | room, pre, cur, [] =>
    if room = 0 then none
    else if cur = [] then if pre = [] then none else some pre
    else if Allowed win32 cur then some (pre ++ cur) else none
  | room, pre, cur, c :: s =>
    if room = 0 ∨ c = colon then none
    else if IsSep c then
      if cur = [] then if pre = [] then none else cleanText win32 room pre [] s
      else if Allowed win32 cur then cleanText win32 (room - 1) (pre ++ cur ++ [slash]) [] s
      else none
    else cleanText win32 (room - 1) pre (cur ++ [c]) s

/-- The loop comes to the end of a component that sends the checks behind it. -/
def Reaches (win32 : Bool) : ℕ → List QByte → List QByte → List QByte → Prop
  | room, _, cur, [] => room ≠ 0 ∧ cur ≠ [] ∧ Overruns win32 cur
  | room, pre, cur, c :: s =>
    room ≠ 0 ∧ c ≠ colon ∧
      if IsSep c then
        if cur = [] then pre ≠ [] ∧ Reaches win32 room pre [] s
        else Overruns win32 cur ∨
          Allowed win32 cur ∧ Reaches win32 (room - 1) (pre ++ cur ++ [slash]) [] s
      else Reaches win32 (room - 1) pre (cur ++ [c]) s

/-! ## The checks of a component -/

section Checks

variable {outlen seg room : ℕ} {buf : Mem QByte} {cur w : List QByte}

/-- The bytes of a component stand in the buffer. -/
def At (buf : Mem QByte) (seg : ℕ) (cur : List QByte) : Prop :=
  ∀ i c, cur[i]? = some c → buf (seg + i) = c

theorem at_cons {c : QByte} : At buf seg (c :: w) ↔ buf seg = c ∧ At buf (seg + 1) w := by
  constructor
  · intro h
    refine ⟨h 0 c rfl, fun i x hx => ?_⟩
    rw [add_assoc, add_comm 1 i]
    exact h (i + 1) x hx
  · rintro ⟨hc, h⟩ i x hx
    cases i with
    | zero => exact hc.trans (some.inj hx)
    | succ i =>
      have := h i x hx
      rwa [add_assoc, add_comm 1 i] at this

/-- The scan over spaces finds the component without them. -/
theorem skipSpaces_eq (hat : At buf seg cur) (hroom : cur.length ≤ room) (hne : trim cur ≠ []) :
    ∃ seg', skipSpaces buf room seg = some seg' ∧
      seg' + (trim cur).length = seg + cur.length ∧ At buf seg' (trim cur) := by
  induction cur generalizing seg room with
  | nil => exact absurd rfl hne
  | cons c cur ih =>
    obtain ⟨room, rfl⟩ : ∃ r, room = r + 1 := ⟨room - 1, by simp at hroom; omega⟩
    have hat' := at_cons.1 hat
    by_cases hc : c = space
    · have htrim : trim (c :: cur) = trim cur := by simp [trim, hc]
      rw [htrim] at hne ⊢
      obtain ⟨seg', hskip, hlen, hat''⟩ := ih hat'.2 (by simpa using hroom) hne
      refine ⟨seg', ?_, ?_, hat''⟩
      · simp [skipSpaces, hat'.1, hc, hskip]
      · rw [hlen, length_cons]
        omega
    · have htrim : trim (c :: cur) = c :: cur := by simp [trim, hc]
      rw [htrim]
      exact ⟨seg, by simp only [skipSpaces, hat'.1, hc, if_false], rfl, hat⟩

/-- A chain of tests that a component does not stop short of. -/
theorem matchAt_eq {ps : List (QByte → Bool)} (hat : At buf seg w) (hlen : seg + w.length ≤ outlen)
    (hover : ¬(w.length < ps.length ∧ List.Forall₂ (fun p c => p c = true) (ps.take w.length) w)) :
    ∃ b, matchAt outlen buf seg ps = some b ∧
      (b = true ↔ List.Forall₂ (fun p c => p c = true) ps (w.take ps.length)) := by
  induction ps generalizing seg w with
  | nil => exact ⟨true, rfl, by simp⟩
  | cons p ps ih =>
    cases w with
    | nil => simp at hover
    | cons c w =>
      have hat' := at_cons.1 hat
      rw [length_cons] at hlen
      have hrd : rd outlen buf seg = some c := by
        rw [rd, if_pos (by omega), hat'.1]
      simp only [matchAt, hrd, bind_eq_bind, bind_some]
      by_cases hp : p c
      · simp only [hp, if_true, length_cons, take_succ_cons, List.forall₂_cons, true_and]
        refine ih hat'.2 (by omega) fun h => hover ?_
        simpa [hp] using h
      · exact ⟨false, by simp [hp], by simp [hp]⟩

theorem matchAny_eq {n : ℕ} {names : List (List (QByte → Bool))} (hat : At buf seg w) (hlen : seg + w.length ≤ outlen)
    (hn : ∀ ps ∈ names, ps.length = n)
    (hover : ∀ ps ∈ names, ¬(w.length < ps.length ∧ List.Forall₂ (fun p c => p c = true) (ps.take w.length) w)) :
    ∃ b, matchAny outlen buf seg names = some b ∧
      (b = true ↔ ∃ ps ∈ names, List.Forall₂ (fun p c => p c = true) ps (w.take n)) := by
  induction names with
  | nil => exact ⟨false, rfl, by simp⟩
  | cons ps names ih =>
    rw [forall_mem_cons] at hn hover
    obtain ⟨b, hb, hiff⟩ := matchAt_eq hat hlen hover.1
    obtain ⟨b', hb', hiff'⟩ := ih hn.2 hover.2
    rw [hn.1] at hiff
    simp only [matchAny, hb, bind_eq_bind, bind_some, exists_mem_cons_iff]
    cases b with
    | true => exact ⟨true, rfl, by simp [hiff.1 rfl]⟩
    | false =>
      have hnot := mt hiff.2 Bool.false_ne_true
      exact ⟨b', by simpa using hb', by simp [hnot, hiff']⟩

theorem isReserved_eq {n : ℕ} {names : List (List (QByte → Bool))} (hat : At buf seg w) (hlen : seg + w.length ≤ outlen)
    (hn : ∀ ps ∈ names, ps.length = n)
    (hover : ∀ ps ∈ names, ¬(w.length < ps.length ∧ List.Forall₂ (fun p c => p c = true) (ps.take w.length) w)) :
    ∃ b, isReserved outlen buf names n (seg + w.length) seg = some b ∧
      (b = true ↔ Reserved names n w) := by
  obtain ⟨b, hb, hiff⟩ := matchAny_eq hat hlen hn hover
  simp only [isReserved, hb, bind_eq_bind, bind_some]
  cases b with
  | false =>
    have hnot := mt hiff.2 Bool.false_ne_true
    exact ⟨false, by simp, by simp [Reserved, hnot]⟩
  | true =>
    obtain ⟨ps, hps, hmatch⟩ := hiff.1 rfl
    have hle : n ≤ w.length := by
      have h := hmatch.length_eq
      rw [hn ps hps, length_take] at h
      omega
    simp only [if_true, add_left_cancel_iff]
    by_cases heq : w.length = n
    · refine ⟨true, by simp [heq], ?_⟩
      simp only [Reserved, ← hiff, true_iff, true_and]
      intro c hc
      simp [← heq] at hc
    · have hlt : n < w.length := by omega
      have hc : w[n]? = some w[n] := List.getElem?_eq_getElem hlt
      have hrd : rd outlen buf (seg + n) = some w[n] := by
        rw [rd, if_pos (by omega), hat n _ hc]
      refine ⟨endsName w[n], by simp [heq, hrd], ?_⟩
      simp [Reserved, ← hiff, hc]

/-- The checks of a component that they do not go behind decide whether it is allowed. -/
theorem segOk_eq {win32 : Bool} (hat : At buf seg cur) (hlen : seg + cur.length < outlen)
    (hzero : ∀ c ∈ cur, c ≠ 0) (hover : ¬Overruns win32 cur) :
    ∃ b, segOk outlen buf win32 (seg + cur.length) seg = some b ∧
      (b = true ↔ Allowed win32 cur) := by
  rw [Overruns, not_or] at hover
  obtain ⟨hne, hover⟩ := hover
  have hroom : cur.length ≤ outlen - seg := by omega
  obtain ⟨seg', hskip, hlen', hat'⟩ := skipSpaces_eq hat hroom hne
  rw [← hlen'] at hlen ⊢
  obtain ⟨c, w, hw⟩ := exists_cons_of_ne_nil hne
  have hc : c ≠ 0 := hzero c (dropWhile_subset _ (by rw [← trim, hw]; simp))
  have hrd : rd outlen buf seg' = some c := by
    have hpos : 0 < (trim cur).length := by simp [hw]
    have hbuf : buf seg' = c := hat' 0 c (by rw [hw]; rfl)
    rw [rd, if_pos (by omega), hbuf]
  simp only [segOk, hskip, hrd, bind_eq_bind, bind_some, if_neg hc]
  by_cases hdot : c = dot
  · have hnot : ¬Allowed win32 cur := fun h => h.2.1 (by rw [hw, hdot, List.head?_cons])
    refine ⟨false, ?_, by simp [hnot]⟩
    rw [if_pos hdot]
    split_ifs with ho
    · rfl
    · have hlt : seg' + 1 < outlen := by
        have hpos : 0 < (trim cur).length := by simp [hw]
        omega
      simp [rd, hlt]
  · rw [if_neg hdot]
    have hhead : (trim cur).head? ≠ some dot := by simp [hw, hdot]
    cases win32 with
    | false => exact ⟨true, rfl, by simp [Allowed, hne, hhead]⟩
    | true =>
      simp only [true_and, mem_append, not_exists, not_and] at hover
      have hlen₄ : ∀ ps ∈ reserved4, ps.length = 4 := by simp [reserved4]
      have hlen₃ : ∀ ps ∈ reserved3, ps.length = 3 := by simp [reserved3]
      obtain ⟨b₄, hb₄, hiff₄⟩ := isReserved_eq hat' hlen.le hlen₄ fun ps hps h => hover ps (.inl hps) h.1 h.2
      obtain ⟨b₃, hb₃, hiff₃⟩ := isReserved_eq hat' hlen.le hlen₃ fun ps hps h => hover ps (.inr hps) h.1 h.2
      simp only [hb₄, hb₃, bind_some, Option.map_some, if_true, Allowed, hne, hhead, ne_eq,
        not_false_eq_true, true_implies, true_and, ← hiff₄, ← hiff₃]
      cases b₄ <;> cases b₃ <;> simp

theorem At.append (hat : At buf seg (cur ++ w)) : At buf seg cur ∧ At buf (seg + cur.length) w := by
  constructor
  · intro i c hc
    refine hat i c ?_
    rwa [List.getElem?_append_left (List.getElem?_eq_some_iff.1 hc).1]
  · intro i c hc
    rw [add_assoc]
    refine hat _ c ?_
    rwa [List.getElem?_append_right (Nat.le_add_right _ _), Nat.add_sub_cancel_left]

/-- A byte stored behind a text. -/
theorem At.store (hat : At buf 0 cur) (c : QByte) : At (buf.store cur.length c) 0 (cur ++ [c]) := by
  intro i x hx
  rw [zero_add]
  by_cases hi : i < cur.length
  · rw [List.getElem?_append_left hi] at hx
    have := hat i x hx
    rw [zero_add] at this
    rw [Mem.store, if_neg hi.ne, this]
  · have hi' : i = cur.length := by
      have := (List.getElem?_eq_some_iff.1 hx).1
      simp at this
      omega
    subst hi'
    simpa [Mem.store] using hx

end Checks

/-! ## The loop -/

/-- The result of the loop is the text `t`, with its NUL in the buffer, or a refusal. -/
def Delivers (outlen : ℕ) (r : Option (Option (Mem QByte × ℕ))) : Option (List QByte) → Prop
  | none => r = some none
  | some t => ∃ buf, r = some (some (buf, t.length)) ∧ At buf 0 (t ++ [0]) ∧ t.length < outlen

section Loop

variable {win32 : Bool} {outlen room : ℕ} {buf : Mem QByte} {pre cur s : List QByte}

theorem wr_eq (hroom : pre.length + room = outlen) (hpos : room ≠ 0) (c : QByte) :
    wr outlen buf pre.length c = some (buf.store pre.length c) := by
  rw [wr, if_pos (by omega)]

/-- The text is complete: its NUL is stored. -/
theorem delivers_nul (hat : At buf 0 pre) (hroom : pre.length + room = outlen) (hpos : room ≠ 0) :
    Delivers outlen ((wr outlen buf pre.length 0).map fun buf => some (buf, pre.length))
      (some pre) := by
  rw [wr_eq hroom hpos]
  exact ⟨_, rfl, hat.store 0, by omega⟩

theorem length_ne (hcur : cur ≠ []) : (pre ++ cur).length ≠ pre.length := by
  have := List.length_pos_iff.2 hcur
  rw [length_append]
  omega

theorem segOk_text (hat : At buf 0 (pre ++ cur)) (hroom : (pre ++ cur).length + room = outlen)
    (hpos : room ≠ 0) (hzero : ∀ c ∈ cur, c ≠ 0) (hover : ¬Overruns win32 cur) :
    ∃ b, segOk outlen buf win32 (pre ++ cur).length pre.length = some b ∧
      (b = true ↔ Allowed win32 cur) := by
  have hcur := hat.append.2
  rw [zero_add] at hcur
  rw [length_append] at hroom ⊢
  exact segOk_eq hcur (by omega) hzero hover

/-- The loop computes the text, unless a component sends its checks behind its end. -/
theorem scan_eq (hat : At buf 0 (pre ++ cur)) (hroom : (pre ++ cur).length + room = outlen)
    (hzero : ∀ c ∈ cur ++ s, c ≠ 0) (hreach : ¬Reaches win32 room pre cur s) :
    Delivers outlen (scan win32 outlen s (pre ++ cur).length pre.length buf)
      (cleanText win32 room pre cur s) := by
  induction s generalizing room buf pre cur with
  | nil =>
    simp only [scan, cleanText]
    by_cases hr : room = 0
    · rw [if_pos (by omega), if_pos hr]
      rfl
    · rw [if_neg (by omega), if_neg hr]
      by_cases hcur : cur = []
      · subst hcur
        simp only [append_nil] at hat hroom ⊢
        by_cases hpre : pre = []
        · simp [hpre, Delivers]
        · simp only [hpre, if_true, if_false, length_eq_zero_iff]
          exact delivers_nul hat hroom hr
      · have hover : ¬Overruns win32 cur := fun h => hreach ⟨hr, hcur, h⟩
        obtain ⟨b, hb, hiff⟩ := segOk_text hat hroom hr (fun c hc => hzero c (mem_append_left _ hc)) hover
        rw [if_neg (length_ne hcur), if_neg hcur, hb]
        cases b with
        | true =>
          rw [if_pos (hiff.1 rfl)]
          exact delivers_nul hat hroom hr
        | false =>
          rw [if_neg (mt hiff.2 Bool.false_ne_true)]
          rfl
  | cons c s ih =>
    have hzero' : ∀ x ∈ cur, x ≠ 0 := fun x hx => hzero x (mem_append_left _ hx)
    have hzeros : ∀ x ∈ s, x ≠ 0 := fun x hx =>
      hzero x (mem_append_right _ (.tail c hx))
    by_cases hr : room = 0
    · have hfull : (pre ++ cur).length = outlen := by omega
      simp only [scan, cleanText, hfull, hr, if_true, true_or]
      rfl
    have hfull : ¬(pre ++ cur).length = outlen := by omega
    by_cases hcolon : c = colon
    · simp only [scan, cleanText, hfull, hcolon, if_true, if_false, or_true]
      rfl
    have hroom' : (pre ++ cur).length + 1 + (room - 1) = outlen := by omega
    simp only [Reaches, hr, hcolon, ne_eq, not_false_eq_true, true_and] at hreach
    simp only [scan, cleanText, hfull, hr, hcolon, or_self, if_false]
    by_cases hsep : IsSep c
    · simp only [hsep, if_true] at hreach ⊢
      by_cases hcur : cur = []
      · -- A separator behind another, or at the start.
        subst hcur
        simp only [append_nil, if_true] at hat hroom hreach ⊢
        by_cases hpre : pre = []
        · simp [hpre, Delivers]
        · simp only [hpre, if_false, not_false_eq_true, length_eq_zero_iff, true_and] at hreach ⊢
          have hat' : At buf 0 (pre ++ []) := by rwa [append_nil]
          have h := ih hat' (by rwa [append_nil]) hzeros hreach
          rwa [append_nil] at h
      · rw [if_neg hcur, not_or, not_and] at hreach
        obtain ⟨b, hb, hiff⟩ := segOk_text hat hroom hr hzero' hreach.1
        rw [if_neg (length_ne hcur), if_neg hcur, hb]
        cases b with
        | true =>
          have hallowed := hiff.1 rfl
          rw [if_pos hallowed]
          simp only [bind_eq_bind, bind_some, if_true, wr_eq hroom hr]
          have hat' : At (buf.store (pre ++ cur).length slash) 0 (pre ++ cur ++ [slash] ++ []) := by
            rw [append_nil]
            exact hat.store slash
          have h := ih hat' (by simpa [add_assoc] using hroom') hzeros (hreach.2 hallowed)
          simpa [add_assoc] using h
        | false =>
          rw [if_neg (mt hiff.2 Bool.false_ne_true)]
          rfl
    · simp only [hsep, if_false] at hreach ⊢
      simp only [bind_eq_bind, wr_eq hroom hr, bind_some]
      have hat' : At (buf.store (pre ++ cur).length c) 0 (pre ++ (cur ++ [c])) := by
        rw [← append_assoc]
        exact hat.store c
      have hzero'' : ∀ x ∈ cur ++ [c] ++ s, x ≠ 0 := by simpa using hzero
      have h := ih hat' (by simpa [add_assoc] using hroom') hzero'' hreach
      simpa [add_assoc] using h

end Loop

/-! ## Names that stay inside -/

/-- A component of a clean name. -/
structure Component (c : List QByte) : Prop where
  no_slash : slash ∉ c
  no_colon : colon ∉ c
  no_backslash : 0x5c ∉ c
  trim_ne : trim c ≠ []
  no_dot : (trim c).head? ≠ some dot

/-- Every component is one of a clean name, but for the last, which may be empty behind others. -/
def CleanName (t : List QByte) : Prop :=
  ∃ cs last, t.splitOn slash = cs ++ [last] ∧ (∀ c ∈ cs, Component c) ∧
    (Component last ∨ last = [] ∧ cs ≠ [])

/-- One component of a path, from a directory on. -/
def walkStep (dir : List (List QByte)) (c : List QByte) : List (List QByte) :=
  if c = [] ∨ c = [dot] then dir else if c = [dot, dot] then dir.dropLast else dir ++ [c]

/-- What a path names, from a directory on. -/
def walk (dir : List (List QByte)) (t : List QByte) : List (List QByte) :=
  (t.splitOn slash).foldl walkStep dir

theorem Component.walkStep {c : List QByte} (hc : Component c) (dir : List (List QByte)) :
    walkStep dir c = dir ++ [c] := by
  have hne : c ≠ [] := fun h => hc.trim_ne (by simp [h, trim])
  have hone : c ≠ [dot] := fun h => hc.no_dot (by simp [h, trim, dot, space])
  have htwo : c ≠ [dot, dot] := fun h => hc.no_dot (by simp [h, trim, dot, space])
  simp [CleanPath.walkStep, hne, hone, htwo]

/-- A clean name is inside every directory that it is put behind. -/
theorem CleanName.prefix_walk {t : List QByte} (ht : CleanName t) (dir : List (List QByte)) :
    dir <+: walk dir t := by
  obtain ⟨cs, last, hsplit, hcs, hlast⟩ := ht
  have hfold : ∀ dir, cs.foldl CleanPath.walkStep dir = dir ++ cs := by
    clear hsplit hlast
    induction cs with
    | nil => simp
    | cons c cs ih =>
      intro dir
      rw [forall_mem_cons] at hcs
      rw [foldl_cons, hcs.1.walkStep, ih hcs.2, append_assoc, singleton_append]
  rw [walk, hsplit, foldl_append, hfold, foldl_cons, foldl_nil]
  rcases hlast with hlast | ⟨rfl, -⟩
  · rw [hlast.walkStep, append_assoc]
    exact prefix_append _ _
  · simp [CleanPath.walkStep]

/-- The components of a text that is built one after another. -/
theorem splitOn_flatMap {cs : List (List QByte)} {last : List QByte}
    (hcs : ∀ c ∈ cs, slash ∉ c) (hlast : slash ∉ last) :
    (cs.flatMap (· ++ [slash]) ++ last).splitOn slash = cs ++ [last] := by
  have hjoin : cs.flatMap (· ++ [slash]) ++ last = [slash].intercalate (cs ++ [last]) := by
    induction cs with
    | nil => simp
    | cons c cs ih =>
      rw [forall_mem_cons] at hcs
      have hne : cs ++ [last] ≠ [] := by simp
      rw [cons_append, intercalate_cons_of_ne_nil hne, ← ih hcs.2, flatMap_cons, append_assoc, append_assoc]
  rw [hjoin]
  refine splitOn_intercalate slash (fun l hl => ?_) (by simp)
  rcases List.mem_append.1 hl with hl | hl
  · exact hcs l hl
  · rwa [List.mem_singleton.1 hl]

variable {win32 : Bool} {cur : List QByte} {buf : Mem QByte} {room : ℕ}

theorem Allowed.component (hallowed : Allowed win32 cur) (hcur : ∀ c ∈ cur, c ≠ colon ∧ ¬IsSep c) : Component cur where
  no_slash h := (hcur _ h).2 (.inr rfl)
  no_colon h := (hcur _ h).1 rfl
  no_backslash h := (hcur _ h).2 (.inl rfl)
  trim_ne := hallowed.1
  no_dot := hallowed.2.1

/-- The text of a name that is accepted is clean. -/
theorem cleanName_of_cleanText {s t : List QByte} {cs : List (List QByte)} (hcs : ∀ c ∈ cs, Component c)
    (hcur : ∀ c ∈ cur, c ≠ colon ∧ ¬IsSep c)
    (ht : cleanText win32 room (cs.flatMap (· ++ [slash])) cur s = some t) : CleanName t := by
  have hslash : ∀ c ∈ cs, slash ∉ c := fun c hc => (hcs c hc).no_slash
  induction s generalizing room cur cs with
  | nil =>
    simp only [cleanText] at ht
    split_ifs at ht with hr hempty hpre hallowed
    · obtain rfl := some.inj ht
      have hne : cs ≠ [] := fun h => hpre (by simp [h])
      refine ⟨cs, [], ?_, hcs, .inr ⟨rfl, hne⟩⟩
      have hsplit := splitOn_flatMap hslash (not_mem_nil (a := slash))
      rwa [append_nil] at hsplit
    · obtain rfl := some.inj ht
      have hlast := hallowed.component hcur
      exact ⟨cs, cur, splitOn_flatMap hslash hlast.no_slash, hcs, .inl hlast⟩
  | cons c s ih =>
    simp only [cleanText] at ht
    split_ifs at ht with hr hsep hempty hpre hallowed
    · exact ih hcs (by simp) ht hslash
    · have hlast := hallowed.component hcur
      have hcs' : ∀ x ∈ cs ++ [cur], Component x := by
        intro x hx
        rcases List.mem_append.1 hx with hx | hx
        · exact hcs x hx
        · rwa [List.mem_singleton.1 hx]
      have ht' : cleanText win32 (room - 1) ((cs ++ [cur]).flatMap (· ++ [slash])) [] s = some t := by simpa using ht
      exact ih hcs' (fun x hx => absurd hx not_mem_nil) ht' fun x hx => (hcs' x hx).no_slash
    · rw [not_or] at hr
      have hcur' : ∀ x ∈ cur ++ [c], x ≠ colon ∧ ¬IsSep x := by
        intro x hx
        rcases List.mem_append.1 hx with hx | hx
        · exact hcur x hx
        · rw [List.mem_singleton.1 hx]
          exact ⟨hr.2, hsep⟩
      exact ih hcs hcur' ht hslash

/-! ## A component of spaces -/

theorem skipSpaces_of_spaces {seg : ℕ} (h : ∀ i, seg ≤ i → buf i = space) :
    skipSpaces buf room seg = none := by
  induction room generalizing seg with
  | zero => rfl
  | succ room ih =>
    rw [skipSpaces, if_pos (h seg le_rfl)]
    exact ih fun i hi => h i (by omega)

theorem eq_space_of_trim (h : trim cur = []) : ∀ c ∈ cur, c = space := by
  induction cur with
  | nil => simp
  | cons c cur ih =>
    by_cases hc : c = space
    · rw [forall_mem_cons]
      exact ⟨hc, ih (by simpa [trim, hc] using h)⟩
    · simp [trim, hc] at h

theorem segOk_of_spaces {outlen o : ℕ} {pre : List QByte}
    (hat : At buf 0 (pre ++ cur)) (hspaces : ∀ i, (pre ++ cur).length ≤ i → buf i = space)
    (htrim : trim cur = []) : segOk outlen buf win32 o pre.length = none := by
  have hskip : skipSpaces buf (outlen - pre.length) pre.length = none := by
    refine skipSpaces_of_spaces fun i hi => ?_
    by_cases hlt : i < (pre ++ cur).length
    · have hall := eq_space_of_trim htrim
      have hmem := hat i _ (List.getElem?_eq_getElem hlt)
      rw [zero_add, getElem_append_right hi] at hmem
      rw [hmem]
      exact hall _ (getElem_mem _)
    · exact hspaces i (by omega)
  simp [segOk, hskip]

theorem overruns_false_iff : Overruns false cur ↔ trim cur = [] := by
  simp [Overruns]

/-- A buffer of spaces lets the loop run out of it. -/
theorem scan_of_spaces {outlen : ℕ} {pre s : List QByte} (hat : At buf 0 (pre ++ cur))
    (hroom : (pre ++ cur).length + room = outlen) (hzero : ∀ c ∈ cur ++ s, c ≠ 0)
    (hspaces : ∀ i, (pre ++ cur).length ≤ i → buf i = space) (hreach : Reaches false room pre cur s) :
    scan false outlen s (pre ++ cur).length pre.length buf = none := by
  induction s generalizing room buf pre cur with
  | nil =>
    obtain ⟨hr, hcur, hover⟩ := hreach
    have hfull : ¬(pre ++ cur).length = outlen := by omega
    have hseg : segOk outlen buf false (pre ++ cur).length pre.length = none :=
      segOk_of_spaces hat hspaces (overruns_false_iff.1 hover)
    simp only [scan, hfull, if_false, length_ne hcur, hseg, bind_eq_bind, Option.bind_none]
  | cons c s ih =>
    obtain ⟨hr, hcolon, hreach⟩ := hreach
    have hfull : ¬(pre ++ cur).length = outlen := by omega
    have hroom' : (pre ++ cur).length + 1 + (room - 1) = outlen := by omega
    have hstore {x : QByte} : ∀ i, (pre ++ cur).length + 1 ≤ i →
        buf.store (pre ++ cur).length x i = space := fun i hi => by
      rw [Mem.store, if_neg (by omega), hspaces i (by omega)]
    simp only [scan, hfull, hcolon, if_false]
    by_cases hsep : IsSep c
    · rw [if_pos hsep] at hreach ⊢
      by_cases hcur : cur = []
      · subst hcur
        rw [if_pos rfl] at hreach
        have hpos : ¬pre.length = 0 := by simpa using hreach.1
        have h := ih hat hroom (fun x hx => hzero x (.tail c hx)) hspaces hreach.2
        simp only [append_nil, if_true, hpos, if_false] at h ⊢
        exact h
      · rw [if_neg hcur] at hreach
        rw [if_neg (length_ne hcur)]
        by_cases hover : Overruns false cur
        · have hseg : segOk outlen buf false (pre ++ cur).length pre.length = none :=
            segOk_of_spaces hat hspaces (overruns_false_iff.1 hover)
          rw [hseg]
          rfl
        · obtain ⟨hallowed, hreach⟩ := hreach.resolve_left hover
          obtain ⟨b, hb, hiff⟩ := segOk_text hat hroom hr (fun x hx => hzero x (mem_append_left _ hx)) hover
          rw [hb, hiff.2 hallowed]
          simp only [bind_eq_bind, bind_some, if_true, wr_eq hroom hr]
          have hat' : At (buf.store (pre ++ cur).length slash) 0 (pre ++ cur ++ [slash] ++ []) := by
            rw [append_nil]
            exact hat.store slash
          have h := ih hat' (by simpa [add_assoc] using hroom')
            (fun x hx => hzero x (mem_append_right _ (.tail c hx)))
            (fun i hi => hstore i (by simpa [add_assoc] using hi)) hreach
          simpa [add_assoc] using h
    · rw [if_neg hsep] at hreach ⊢
      simp only [bind_eq_bind, wr_eq hroom hr, bind_some]
      have hat' : At (buf.store (pre ++ cur).length c) 0 (pre ++ (cur ++ [c])) := by
        rw [← append_assoc]
        exact hat.store c
      have hzero' : ∀ x ∈ cur ++ [c] ++ s, x ≠ 0 := by simpa using hzero
      have h := ih hat' (by simpa [add_assoc] using hroom') hzero'
        (fun i hi => hstore i (by simpa [add_assoc] using hi)) hreach
      simpa [add_assoc] using h

end CleanPath

open CleanPath

/-- What is expected of `FS_GetCleanPath`: it stays in its buffer, its result does not depend on
what was there, and a name that it accepts is clean. -/
def CleanPathHolds (win32 : Bool) (pattern : List QByte) (outlen : ℕ) : Prop :=
  ∃ t, (∀ outbuf, Delivers outlen (fsGetCleanPath win32 pattern outlen outbuf) t) ∧
    ∀ name ∈ t, CleanName name ∧ ∀ dir, dir <+: walk dir name

theorem cleanPathHolds_of_not_reaches {win32 : Bool} {pattern : List QByte} {outlen : ℕ}
    (hzero : ∀ c ∈ pattern, c ≠ 0) (hreach : ¬Reaches win32 outlen [] [] pattern) :
    CleanPathHolds win32 pattern outlen := by
  by_cases hempty : pattern = []
  · refine ⟨none, fun outbuf => ?_, by simp⟩
    rw [fsGetCleanPath, if_pos hempty]
    rfl
  · refine ⟨cleanText win32 outlen [] [] pattern, fun outbuf => ?_, fun name hname => ?_⟩
    · rw [fsGetCleanPath, if_neg hempty]
      have hat : At outbuf 0 ([] ++ []) := fun i c hc => by simp at hc
      exact scan_eq hat (by simp) (by simpa using hzero) hreach
    · have hclean : CleanName name :=
        cleanName_of_cleanText (forall_mem_nil _) (forall_mem_nil _) hname
      exact ⟨hclean, hclean.prefix_walk⟩

theorem not_cleanPathHolds_of_reaches {pattern : List QByte} {outlen : ℕ}
    (hzero : ∀ c ∈ pattern, c ≠ 0) (hreach : Reaches false outlen [] [] pattern) :
    ¬CleanPathHolds false pattern outlen := by
  rintro ⟨t, ht, -⟩
  have hempty : pattern ≠ [] := by
    rintro rfl
    exact hreach.2.1 rfl
  have hat : At (fun _ => space) 0 ([] ++ []) := fun i c hc => by simp at hc
  have hnone : scan false outlen pattern 0 0 (fun _ => space) = none :=
    scan_of_spaces hat (zero_add outlen) (by simpa using hzero) (fun _ _ => rfl) hreach
  have hdelivers := ht fun _ => space
  rw [fsGetCleanPath, if_neg hempty] at hdelivers
  rw [hnone] at hdelivers
  cases t with
  | none => cases hdelivers
  | some t =>
    obtain ⟨buf, hbuf, -⟩ := hdelivers
    cases hbuf

/-- `FS_GetCleanPath` does what is expected unless the loop comes to the end of a component of
spaces only, and then it does not. In Windows builds the same goes for the beginnings of reserved
names, where it may. -/
theorem fsGetCleanPath_holds_iff (pattern : List QByte) (outlen : ℕ) (hzero : ∀ c ∈ pattern, c ≠ 0) :
    (CleanPathHolds false pattern outlen ↔ ¬Reaches false outlen [] [] pattern) ∧
      (¬Reaches true outlen [] [] pattern → CleanPathHolds true pattern outlen) := by
  refine ⟨⟨fun h hreach => ?_, cleanPathHolds_of_not_reaches hzero⟩,
    cleanPathHolds_of_not_reaches hzero⟩
  exact not_cleanPathHolds_of_reaches hzero hreach h

/-- For the name `a`. -/
theorem fsGetCleanPath_holds_iff_letter :
    (CleanPathHolds false [0x61] 4 ↔ ¬Reaches false 4 [] [] [0x61]) ∧
      (¬Reaches true 4 [] [] [0x61] → CleanPathHolds true [0x61] 4) :=
  fsGetCleanPath_holds_iff [0x61] 4 (by decide)

/-- A single space. -/
theorem fsGetCleanPath_space : ¬∀ (win32 : Bool) (pattern : List QByte) (outlen : ℕ),
    (∀ c ∈ pattern, c ≠ 0) → 1 ≤ outlen → CleanPathHolds win32 pattern outlen := by
  intro h
  have hreach : Reaches false 4 [] [] [space] := by
    have hsep : ¬IsSep space := by decide
    have hcolon : space ≠ colon := by decide
    have hover : Overruns false [space] := overruns_false_iff.2 rfl
    simp [Reaches, hsep, hcolon, hover]
  exact not_cleanPathHolds_of_reaches (by decide) hreach (h false [space] 4 (by decide) (by decide))

end FteQuake
