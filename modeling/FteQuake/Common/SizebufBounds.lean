import FteQuake.Common.MsgWrite
import Mathlib.Logic.Relation

/-!
# Runs of calls on a message buffer

`SZ_Print`, `MSG_WriteBits` with raw bytes, and what any sequence of calls does to a buffer that
allows overflow. Every call comes down to requests: a call of `SZ_GetSpace` and the stores to the
bytes it reserved. A request that does not fit empties the buffer and is then served, whatever its
size, so that only a request of at most `maxsize` bytes stays inside (`Request.bounded`). The
messages writers are made of such requests (`Requests`), of one to nine bytes, and a string.

`SZ_Print` writes over the terminator of the string before it. When its request empties the buffer
there is none, and it stores one byte more than it asked for.

The sum `cursize + length` of `SZ_GetSpace` is an `int`: a call for which it leaves that range is
undefined in C, and `Op.Fits` leaves it out.
-/

namespace FteQuake

namespace SizebufBounds

open Relation (TransGen)

/-! ## The remaining calls -/

/-- `SZ_Print`, on the bytes before the terminator. -/
def szPrint (data : List QByte) : MsgWriter Unit := do
  let buf ← get
  let len := data.length + 1
  if buf.cursize = 0 ∨ buf.data (buf.cursize - 1) ≠ 0 then
    let p ← szGetSpace len
    modify fun buf => { buf with data := buf.data.blit p (data ++ [0]) }
  else
    let msg ← szGetSpace (len - 1)
    -- the address is that of the buffer only when the request emptied it
    let msg := if msg = 0 then msg + 1 else msg
    modify fun buf => { buf with data := buf.data.blit (msg - 1) (data ++ [0]) }

/-- `MSG_WriteRawBytes`. -/
def msgWriteRawBytes (value : Int) (bits : ℕ) : MsgWriter Unit :=
  if bits ≤ 8 then szWrite [BitVec.ofInt 8 value]
  else if bits ≤ 16 then szWrite [BitVec.ofInt 8 value, BitVec.ofInt 8 (value >>> (8 : ℕ))]
  else
    szWrite
      [BitVec.ofInt 8 value, BitVec.ofInt 8 (value >>> (8 : ℕ)), BitVec.ofInt 8 (value >>> (16 : ℕ)),
        BitVec.ofInt 8 (value >>> (24 : ℕ))]

/-! ## What a call leaves -/

/-- The buffer `t` after calls on the buffer `s`: its size is the same, no more bytes are in use
than it has, and what lies behind its end is as before. -/
structure Bounded (s t : Sizebuf) : Prop where
  maxsize : t.maxsize = s.maxsize
  allowoverflow : t.allowoverflow = s.allowoverflow
  cursize : t.cursize ≤ t.maxsize
  stores : ∀ i, s.maxsize ≤ i → t.data i = s.data i

variable {s t : Sizebuf} {k : ℕ}

theorem Bounded.trans {u : Sizebuf} (h : Bounded s t) (h' : Bounded t u) : Bounded s u where
  maxsize := h'.maxsize.trans h.maxsize
  allowoverflow := h'.allowoverflow.trans h.allowoverflow
  cursize := h'.cursize
  stores i hi := (h'.stores i (h.maxsize.symm ▸ hi)).trans (h.stores i hi)

/-- What `SZ_GetSpace` does: it reserves behind the bytes in use, or from the start. -/
theorem szGetSpace_cases {length p : ℕ} (h : (szGetSpace length).run s = some (p, t)) :
    t.maxsize = s.maxsize ∧ t.allowoverflow = s.allowoverflow ∧ t.data = s.data ∧
      t.cursize = p + length ∧
      (p = s.cursize ∧ s.cursize + length ≤ s.maxsize ∨ p = 0 ∧ s.maxsize < s.cursize + length) := by
  change szGetSpace length s = _ at h
  unfold szGetSpace at h
  split at h
  · split at h
    · cases h
    · rename_i hover _
      cases h
      exact ⟨rfl, rfl, rfl, rfl, .inr ⟨rfl, hover⟩⟩
  · rename_i hfits
    cases h
    exact ⟨rfl, rfl, rfl, rfl, .inl ⟨rfl, by omega⟩⟩

/-- A buffer that allows overflow serves every request. -/
theorem szGetSpace_isSome (h : s.allowoverflow = true) (length : ℕ) :
    ∃ p t, (szGetSpace length).run s = some (p, t) := by
  change ∃ p t, szGetSpace length s = some (p, t)
  unfold szGetSpace
  rw [h]
  split
  · exact ⟨_, _, rfl⟩
  · exact ⟨_, _, rfl⟩

/-- One call of `SZ_GetSpace` for at most `k` bytes, with the stores to them. -/
def Request (k : ℕ) (s t : Sizebuf) : Prop :=
  ∃ data : List QByte, data.length ≤ k ∧ (szWrite data).run s = some ((), t)

theorem Request.mono {m : ℕ} (hkm : k ≤ m) (h : Request k s t) : Request m s t := by
  obtain ⟨data, hdata, hrun⟩ := h
  exact ⟨data, hdata.trans hkm, hrun⟩

/-- **A request of at most `maxsize` bytes stays inside the buffer**, whatever was in use. -/
theorem Request.bounded (h : Request k s t) (hk : k ≤ s.maxsize) :
    Bounded s t := by
  obtain ⟨data, hdata, hrun⟩ := h
  obtain ⟨p, u, hspace, hstore⟩ := StreamProgram.run_bind_inv hrun
  obtain ⟨hmax, hallow, hmem, hcur, hcases⟩ := szGetSpace_cases hspace
  cases hstore
  have hend : p + data.length ≤ s.maxsize := by
    rcases hcases with ⟨rfl, hfits⟩ | ⟨rfl, -⟩
    · exact hfits
    · omega
  refine ⟨hmax, hallow, by simp only; omega, fun i hi => ?_⟩
  rw [← hmem]
  exact Mem.blit_apply_ge _ _ (by omega)

/-! ## Message writers as requests -/

/-- A writer that makes requests, at least one, of at most `k` bytes each. -/
def Requests (k : ℕ) (w : MsgWriter Unit) : Prop :=
  ∀ s t, w.run s = some ((), t) → TransGen (Request k) s t

theorem Requests.mono {m : ℕ} (hkm : k ≤ m) {w : MsgWriter Unit} (h : Requests k w) :
    Requests m w :=
  fun s t hrun => TransGen.mono (fun _ _ => Request.mono hkm) s t (h s t hrun)

theorem szWrite_requests {data : List QByte} (h : data.length ≤ k) :
    Requests k (szWrite data) :=
  fun _ _ hrun => .single ⟨data, h, hrun⟩

theorem Requests.seq {w w' : MsgWriter Unit} (h : Requests k w) (h' : Requests k w') :
    Requests k (do w; w') := by
  intro s u hrun
  obtain ⟨_, t, hw, hw'⟩ := StreamProgram.run_bind_inv hrun
  exact (h s t hw).trans (h' t u hw')

theorem msgWriteRawBytes_requests (value : Int) (bits : ℕ) :
    Requests 4 (msgWriteRawBytes value bits) := by
  unfold msgWriteRawBytes
  split
  · exact szWrite_requests (by simp)
  · split
    · exact szWrite_requests (by simp)
    · exact szWrite_requests (by simp)

theorem msgWriteEntity_requests (entnum : ℕ) : Requests 2 (msgWriteEntity entnum) := by
  unfold msgWriteEntity
  split
  · exact fun s t hrun => nomatch hrun
  · split
    · exact .seq (szWrite_requests (by simp)) (szWrite_requests (by simp))
    · exact szWrite_requests (by simp)

theorem msgWriteULEB128_requests (c : BitVec 64) : Requests 1 (msgWriteULEB128 c) := by
  induction c using msgWriteULEB128.induct with
  | case1 c c' h =>
    rw [msgWriteULEB128, if_pos h]
    exact szWrite_requests (by simp)
  | case2 c c' h ih =>
    rw [msgWriteULEB128, if_neg h]
    exact .seq (szWrite_requests (by simp)) ih

theorem msgWriteSignedQEX_requests (c : BitVec 64) : Requests 1 (msgWriteSignedQEX c) := by
  rw [msgWriteSignedQEX_eq]
  exact msgWriteULEB128_requests _

/-- A byte-packed `MSG_Write*` call: a writer, and the size of the largest request it makes. -/
structure MsgCall where
  write : MsgWriter Unit
  request : ℕ
  requests : Requests request write

namespace MsgCall

def writeChar (c : Int) : MsgCall := ⟨msgWriteChar c, 1, szWrite_requests (by simp)⟩

def writeByte (c : Int) : MsgCall := ⟨msgWriteByte c, 1, szWrite_requests (by simp)⟩

def writeShort (c : Int) : MsgCall := ⟨msgWriteShort c, 2, szWrite_requests (by simp)⟩

def writeLong (c : Int) : MsgCall := ⟨msgWriteLong c, 4, szWrite_requests (by simp)⟩

def writeFloat (f : BitVec 32) : MsgCall := ⟨msgWriteFloat f, 4, szWrite_requests (by simp [floatBytes])⟩

def writeDouble (c : BitVec 64) : MsgCall := ⟨msgWriteDouble c, 8, szWrite_requests (by simp [doubleBytes])⟩

def writeString (s : List QByte) : MsgCall := ⟨msgWriteString s, s.length + 1, szWrite_requests (by simp)⟩

def writeEntity (entnum : ℕ) : MsgCall := ⟨msgWriteEntity entnum, 2, msgWriteEntity_requests entnum⟩

def writeULEB128 (c : BitVec 64) : MsgCall := ⟨msgWriteULEB128 c, 1, msgWriteULEB128_requests c⟩

def writeSignedQEX (c : BitVec 64) : MsgCall :=
  ⟨msgWriteSignedQEX c, 1, msgWriteSignedQEX_requests c⟩

def writeUInt64 (c : BitVec 64) : MsgCall :=
  ⟨msgWriteUInt64 c, (uInt64Bytes c).length, szWrite_requests le_rfl⟩

def writeBits (value : Int) (bits : ℕ) : MsgCall :=
  ⟨msgWriteRawBytes value bits, 4, msgWriteRawBytes_requests value bits⟩

/-- A writer that calls one and then the other. -/
def seq (a b : MsgCall) : MsgCall where
  write := do a.write; b.write
  request := max a.request b.request
  requests := (a.requests.mono (le_max_left ..)).seq (b.requests.mono (le_max_right ..))

end MsgCall

/-- Requests of at most `maxsize` bytes, one after the other. -/
theorem Bounded.of_requests {k : ℕ} {s t : Sizebuf} (h : TransGen (Request k) s t)
    (hk : k ≤ s.maxsize) : Bounded s t := by
  induction h with
  | single h => exact h.bounded hk
  | tail _ h ih => exact ih.trans (h.bounded (ih.maxsize.symm ▸ hk))

/-! ## Runs -/

/-- The calls. The space that `SZ_GetSpace` reserves is filled with `data`. -/
inductive Op
  | clear
  | getSpace (data : List QByte)
  | write (data : List QByte)
  | print (data : List QByte)
  | msg (call : MsgCall)

namespace Op

/-- What a call does; `none` is a call that does not return. -/
def exec : Op → Sizebuf → Option Sizebuf
  | clear, s => some (szClear s)
  | getSpace data, s => ((szWrite data).run s).map Prod.snd
  | write data, s => ((szWrite data).run s).map Prod.snd
  | print data, s => ((szPrint data).run s).map Prod.snd
  | msg call, s => (call.write.run s).map Prod.snd

/-- The size of the largest request, with the terminator of a string that is printed. -/
def request : Op → ℕ
  | clear => 0
  | getSpace data => data.length
  | write data => data.length
  | print data => data.length + 1
  | msg call => call.request

/-- The condition on a call and the buffer before it: it asks for no more than the whole buffer, and
the sums of the lengths are `int`s. -/
def Fits (op : Op) (s : Sizebuf) : Prop :=
  op.request ≤ s.maxsize ∧ max s.cursize s.maxsize + op.request < 2 ^ 31

end Op

theorem szClear_bounded (s : Sizebuf) : Bounded s (szClear s) :=
  ⟨rfl, rfl, Nat.zero_le _, fun _ _ => rfl⟩

variable {s t : Sizebuf}

/-- **`SZ_Print` of a string that fits with its terminator stays inside the buffer.** -/
theorem szPrint_bounded {data : List QByte} (hfits : data.length + 1 ≤ s.maxsize)
    (h : (szPrint data).run s = some ((), t)) : Bounded s t := by
  obtain ⟨_, _, hget, h⟩ := StreamProgram.run_bind_inv h
  cases hget
  have hlength : (data ++ [0]).length = data.length + 1 := List.length_append
  by_cases hnul : s.cursize = 0 ∨ s.data (s.cursize - 1) ≠ 0
  · -- no terminator to write over: a request like any other
    refine Request.bounded ⟨data ++ [0], le_rfl, ?_⟩ (hlength ▸ hfits)
    simp only [if_pos hnul] at h
    rwa [szWrite, hlength]
  · simp only [if_neg hnul] at h
    obtain ⟨p, u, hspace, hstore⟩ := StreamProgram.run_bind_inv h
    obtain ⟨hmax, hallow, hmem, hcur, hcases⟩ := szGetSpace_cases hspace
    cases hstore
    have hpos : s.cursize ≠ 0 := fun h0 => hnul (.inl h0)
    have hend : (if p = 0 then p + 1 else p) - 1 + (data.length + 1) ≤ s.maxsize := by
      rcases hcases with ⟨rfl, hroom⟩ | ⟨rfl, -⟩
      · rw [if_neg hpos]
        omega
      · rw [if_pos rfl]
        omega
    refine ⟨hmax, hallow, ?_, fun i hi => ?_⟩
    · rcases hcases with ⟨rfl, hroom⟩ | ⟨rfl, -⟩
      · simp only
        omega
      · simp only
        omega
    · rw [← hmem]
      exact Mem.blit_apply_ge _ _ (by rw [hlength]; omega)

theorem exec_eq_some {w : MsgWriter Unit} (h : (w.run s).map Prod.snd = some t) :
    w.run s = some ((), t) := by
  obtain ⟨⟨_, t'⟩, hrun, rfl⟩ := Option.map_eq_some_iff.1 h
  exact hrun

/-- **A call that fits stays inside the buffer.** -/
theorem Op.Fits.bounded {op : Op} (hop : op.Fits s) (h : op.exec s = some t) :
    Bounded s t := by
  cases op with
  | clear =>
    cases h
    exact szClear_bounded s
  | getSpace data => exact Request.bounded ⟨data, le_rfl, exec_eq_some h⟩ hop.1
  | write data => exact Request.bounded ⟨data, le_rfl, exec_eq_some h⟩ hop.1
  | print data => exact szPrint_bounded hop.1 (exec_eq_some h)
  | msg call => exact .of_requests (call.requests s t (exec_eq_some h)) hop.1

theorem szWrite_isSome (h : s.allowoverflow = true) (data : List QByte) :
    ((szWrite data).run s).isSome = true := by
  obtain ⟨p, t, hspace⟩ := szGetSpace_isSome h data.length
  rw [szWrite, StateT.run_bind, hspace]
  rfl

theorem szPrint_isSome (h : s.allowoverflow = true) (data : List QByte) :
    ((szPrint data).run s).isSome = true := by
  change ((if _ then _ else _ : MsgWriter Unit).run s).isSome = true
  split
  · obtain ⟨p, t, hspace⟩ := szGetSpace_isSome h (data.length + 1)
    rw [StateT.run_bind, hspace]
    rfl
  · obtain ⟨p, t, hspace⟩ := szGetSpace_isSome h (data.length + 1 - 1)
    rw [StateT.run_bind, hspace]
    rfl

/-- Calls on a buffer, one after the other, each of which meets a condition. -/
inductive Run (P : Op → Sizebuf → Prop) (s : Sizebuf) : List Op → Sizebuf → Prop
  | nil : Run P s [] s
  | call {ops : List Op} {op : Op} {t u : Sizebuf} (hrun : Run P s ops t) (hop : P op t)
    (h : op.exec t = some u) : Run P s (ops ++ [op]) u

theorem Run.bounded {ops : List Op} (h : Run Op.Fits s ops t) :
    ops = [] ∧ t = s ∨ Bounded s t := by
  induction h with
  | nil => exact .inl ⟨rfl, rfl⟩
  | call _ hop hexec ih =>
    rcases ih with ⟨-, rfl⟩ | ih
    · exact .inr (hop.bounded hexec)
    · exact .inr (ih.trans (hop.bounded hexec))

theorem Run.allowoverflow {ops : List Op} (h : Run Op.Fits s ops t) :
    t.allowoverflow = s.allowoverflow := by
  rcases h.bounded with ⟨-, rfl⟩ | h
  · rfl
  · exact h.allowoverflow

/-- **The invariant of message buffers.** After any calls that fit, on a buffer in any state that
allows overflow, the bytes in use are within the buffer, nothing was stored behind its end, and the
next call of the `SZ_` functions returns. -/
theorem sizebuf_bounded {s t : Sizebuf} {ops : List Op} (hallow : s.allowoverflow = true)
    (h : Run Op.Fits s ops t) :
    (ops ≠ [] → t.cursize ≤ t.maxsize ∧ t.maxsize = s.maxsize ∧
      ∀ i, s.maxsize ≤ i → t.data i = s.data i) ∧
    ∀ op : Op, (∀ call, op ≠ .msg call) → (op.exec t).isSome = true := by
  have hallow' : t.allowoverflow = true := h.allowoverflow.trans hallow
  constructor
  · intro hops
    rcases h.bounded with ⟨hnil, -⟩ | h
    · exact absurd hnil hops
    · exact ⟨h.cursize, h.maxsize, h.stores⟩
  · intro op hop
    cases op with
    | clear => rfl
    | getSpace data => exact (Option.isSome_map ..).trans (szWrite_isSome hallow' data)
    | write data => exact (Option.isSome_map ..).trans (szWrite_isSome hallow' data)
    | print data => exact (Option.isSome_map ..).trans (szPrint_isSome hallow' data)
    | msg call => exact absurd rfl (hop call)

/-- A buffer of four bytes that allows overflow, with the string `a` and its terminator in use and
other data behind them. -/
def smallBuffer : Sizebuf :=
  { Sizebuf.bufferOf [0x61, 0] 2 with
    data := Mem.blit (fun _ => 7) 0 [0x61, 0], allowoverflow := true }

theorem sizebuf_bounded_print :
    ∃ t, Run Op.Fits smallBuffer [.print [0x62], .write [1, 2]] t ∧
      t.cursize ≤ t.maxsize ∧ ∀ i, 4 ≤ i → t.data i = smallBuffer.data i := by
  have hprint : Op.Fits (.print [0x62]) smallBuffer := ⟨by decide, by decide⟩
  have hone := (Run.nil (P := Op.Fits)).call hprint rfl
  have htwo := hone.call (u := _) (⟨by decide, by decide⟩ : Op.Fits (.write [1, 2]) _) rfl
  obtain ⟨hcursize, -, hstores⟩ := (sizebuf_bounded rfl htwo).1 (by simp)
  exact ⟨_, htwo, hcursize, hstores⟩

/-- **A request of more bytes than the buffer has is served all the same.** A string of as many
bytes that replaces one leaves the bytes in use within the buffer, and its terminator behind it. -/
theorem sizebuf_overruns :
    (¬∀ s t ops, s.allowoverflow = true → s.cursize ≤ s.maxsize → Run (fun _ _ => True) s ops t →
      t.cursize ≤ t.maxsize ∧ ∀ i, s.maxsize ≤ i → t.data i = s.data i) ∧
    ∃ t, Op.exec (.print [0x62, 0x63, 0x64, 0x65]) smallBuffer = some t ∧
      t.cursize = smallBuffer.maxsize ∧
      t.data smallBuffer.maxsize ≠ smallBuffer.data smallBuffer.maxsize := by
  constructor
  · intro h
    have hrun : Run (fun _ _ => True) smallBuffer [.write [1, 2, 3, 4, 5]] _ :=
      Run.nil.call trivial rfl
    exact absurd (h _ _ _ rfl (by decide) hrun).1 (by decide)
  · exact ⟨_, rfl, rfl, by decide⟩

end SizebufBounds

end FteQuake
