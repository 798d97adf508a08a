import FteQuake.Lib.Memory
import FteQuake.Lib.StreamProgram

/-!
# Message buffers

The `sizebuf_t` of `common.h` and its operations of `common.c`. A buffer is a memory (the block
`data` points at), its size and the number of bytes in use. `SZ_GetSpace` reserves bytes at the
end: when they do not fit it ends the program (`Sys_Error`) unless the buffer allows overflow, in
which case it empties the buffer first and marks it overflowed.

Sizes and bit counts are natural numbers: the buffers of the engine are far below the 256 megabytes
from which a bit count would leave the `int` it is kept in.

Operations that may end the program live in `StateT Sizebuf Option`, `none` standing for
`Sys_Error`. The C code stores single bytes into the space it reserved
(`buf = SZ_GetSpace(sb, n); buf[0] = …; buf[n-1] = …`); this is `szWrite` of the list of the
stored bytes.

`sink` makes a buffer a `Sink`: `szWrite_emits` is the one fact about it that the message writers
use.
-/

namespace FteQuake

open StreamProgram

/-- `qbyte`. -/
abbrev QByte := BitVec 8

/-- The instance behind the membership of a byte in a list. -/
instance instLawfulBEqQByte : LawfulBEq QByte := inferInstance

/-- `sbpacking_t`. -/
inductive Sbpacking
  | bad
  | rawBytes
  | rawBits
  | huffman
  deriving DecidableEq, Repr

/-- `struct netprim_s`: the sizes of coordinates and angles, and the `NPQ2_*` flags. -/
structure Netprim where
  coordtype : QByte
  anglesize : QByte
  flags : QByte
  deriving DecidableEq, Repr

/-- `NPQ2_R1Q2_UCMD`. -/
def npq2R1q2Ucmd : QByte := 1 <<< 2

/-- `sizebuf_t`. -/
structure Sizebuf where
  data : Mem QByte
  maxsize : ℕ
  cursize : ℕ
  allowoverflow : Bool
  overflowed : Bool
  packing : Sbpacking
  currentbit : ℕ
  prim : Netprim

/-- Programs on a message buffer; `none` is `Sys_Error`. -/
abbrev MsgWriter := StateT Sizebuf Option

namespace Sizebuf

/-- The bytes in use. -/
def contents (buf : Sizebuf) : List QByte := buf.data.slice 0 buf.cursize

variable (buf : Sizebuf)

@[simp] theorem length_contents : buf.contents.length = buf.cursize := by
  simp [contents]

/-- The buffer with `xs` stored after the bytes in use. -/
def append (buf : Sizebuf) (xs : List QByte) : Sizebuf :=
  { buf with data := buf.data.blit buf.cursize xs, cursize := buf.cursize + xs.length }

@[simp] theorem contents_append (xs : List QByte) :
    (buf.append xs).contents = buf.contents ++ xs := by
  have h := Mem.slice_blit_append buf.data 0 buf.cursize xs
  rwa [Nat.zero_add] at h

@[simp] theorem cursize_append (xs : List QByte) :
    (buf.append xs).cursize = buf.cursize + xs.length := rfl

@[simp] theorem maxsize_append (xs : List QByte) :
    (buf.append xs).maxsize = buf.maxsize := rfl

/-- A buffer that holds `xs` and has room for `n` more bytes. -/
def bufferOf (xs : List QByte) (n : ℕ) : Sizebuf :=
  { data := Mem.blit (fun _ => 0) 0 xs, maxsize := xs.length + n, cursize := xs.length,
    allowoverflow := false, overflowed := false, packing := .rawBytes, currentbit := 0,
    prim := ⟨0, 0, 0⟩ }

theorem contents_bufferOf (xs : List QByte) (n : ℕ) : (bufferOf xs n).contents = xs :=
  Mem.slice_blit_self _ 0 xs

/-- A buffer as a place to write bytes to. -/
def sink : Sink Sizebuf QByte where
  room buf n := buf.cursize + n ≤ buf.maxsize
  push := append
  push_nil buf := by simp [append]
  push_append buf xs ys := by simp [append, Mem.blit_append, Nat.add_assoc]
  room_mono h hm := by omega
  room_push h := by simp only [cursize_append, maxsize_append]; omega

/-- What a writer emits is determined by the writer. -/
theorem emits_unique {w : MsgWriter Unit} {xs ys : List QByte} (h : sink.Emits w xs ())
    (h' : sink.Emits w ys ()) : xs = ys := by
  have e := (h (bufferOf [] (xs.length + ys.length)) (by simp [sink, bufferOf])).symm.trans
    (h' (bufferOf [] (xs.length + ys.length)) (by simp [sink, bufferOf]))
  have e' := congrArg (fun o => o.map fun p => p.2.contents) e
  simpa [sink, contents_bufferOf] using e'

end Sizebuf

/-- `SZ_Clear`. -/
def szClear (buf : Sizebuf) : Sizebuf := { buf with cursize := 0, overflowed := false }

/-- `SZ_GetSpace`: the address of the reserved bytes. -/
def szGetSpace (length : ℕ) : MsgWriter ℕ := fun buf =>
  if buf.cursize + length > buf.maxsize then
    if !buf.allowoverflow then none
    else
      let buf := { szClear buf with overflowed := true }
      some (buf.cursize, { buf with cursize := buf.cursize + length })
  else some (buf.cursize, { buf with cursize := buf.cursize + length })

/-- `SZ_Write`: `memcpy (SZ_GetSpace (buf, length), data, length)`. -/
def szWrite (data : List QByte) : MsgWriter Unit := do
  let p ← szGetSpace data.length
  modify fun buf => { buf with data := buf.data.blit p data }

theorem szWrite_run_of_fits {buf : Sizebuf} {data : List QByte} (h : buf.cursize + data.length ≤ buf.maxsize) :
    (szWrite data).run buf = some ((), buf.append data) := by
  simp only [szWrite, StateT.run_bind]
  rw [show (szGetSpace data.length).run buf = some (buf.cursize, _) from if_neg (by omega)]
  rfl

/-- **Writing bytes that fit appends them.** -/
theorem szWrite_emits (data : List QByte) : Sizebuf.sink.Emits (szWrite data) data () :=
  fun _ h => szWrite_run_of_fits h

end FteQuake
