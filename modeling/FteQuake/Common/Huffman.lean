import FteQuake.Common.Sizebuf
import FteQuake.Lib.BitBuffer
import FteQuake.Lib.PrefixTree

/-!
# Huffman-compressed packets

`Huff_CompressPacket` and `Huff_DecompressPacket` of `huff.c`, on a static tree. The tree is the
linked structure of the C code: nodes in an array, the parent links used to send a symbol and the
child links used to receive one. `Represents` relates it to a `PrefixTree`, and with it
`huffOffsetTransmit` appends the code of a symbol and `huffOffsetReceive` takes it back.

A packet is sent with a byte in front that says how it was packed. The code counts its output in
bits and then uses the count as a number of bytes: `transparent_iff` says for which packets the two
functions are nevertheless inverse to each other.

The local `buffer` of the compressor starts with arbitrary contents (`junk`).
-/

namespace FteQuake

open BitBuffer Sizebuf List Option BitVec Mem

/-- `HMAX`. -/
def hmax : ℕ := 256

/-- `NYT`. -/
def nyt : ℕ := hmax

/-- `INTERNAL_NODE`. -/
def internalNode : ℕ := hmax + 1

/-- `MAX_OVERALLMSGLEN`. -/
def maxOverallmsglen : ℕ := 65536

/-- `node_t`: the links of the tree and the symbol. -/
structure HuffNode where
  left : Option ℕ
  right : Option ℕ
  parent : Option ℕ
  symbol : ℕ
  deriving DecidableEq, Repr

/-- `huff_t`: the nodes are `nodeList`, pointers to them are indices. -/
structure HuffT where
  tree : Option ℕ
  loc : ℕ → Option ℕ
  nodeList : ℕ → HuffNode

/-- `struct huffman_s`. -/
structure Huffman where
  compressor : HuffT
  decompressor : HuffT

/-- The number of nodes, which bounds the length of a path. -/
def nodeCount : ℕ := 768

/-! ## Sending and receiving symbols -/

/-- `huff_add_bit`, on the output and `bloc`. -/
def huffAddBit (bit : Bool) (out : Mem QByte × ℕ) : Mem QByte × ℕ :=
  let (fout, bloc) := out
  let fout := if bloc &&& 7 = 0 then fout.store (bloc >>> 3) 0 else fout
  (fout.store (bloc >>> 3) (fout (bloc >>> 3) ||| (BitVec.ofBool bit).setWidth 8 <<< (bloc &&& 7)),
    bloc + 1)

/-- `huff_send`: the codes of the ancestors first. The recursion follows the parent links. -/
def huffSend (huff : HuffT) : (depth : ℕ) → (node : ℕ) → (child : Option ℕ) → Mem QByte × ℕ →
    Option (Mem QByte × ℕ)
  | 0, _, _, _ => none
  | depth + 1, node, child, out =>
    let sent :=
      match (huff.nodeList node).parent with
      | some parent => huffSend huff depth parent (some node) out
      | none => some out
    match child with
    | some child => sent.map (huffAddBit ((huff.nodeList node).right = some child))
    | none => sent

/-- `Huff_offsetTransmit`; a symbol without a node is a null pointer. -/
def huffOffsetTransmit (huff : HuffT) (ch : ℕ) (fout : Mem QByte) (offset : ℕ) :
    Option (Mem QByte × ℕ) :=
  (huff.loc ch).bind fun node => huffSend huff nodeCount node none (fout, offset)

/-- The loop of `Huff_offsetReceive`, with `bloc`: the node it ends at. -/
def huffWalk (huff : HuffT) (fin : Mem QByte) : (depth : ℕ) → (node : Option ℕ) → (bloc : ℕ) →
    Option (Option ℕ × ℕ)
  | 0, _, _ => none
  | _ + 1, none, bloc => some (none, bloc)
  | depth + 1, some p, bloc =>
    if (huff.nodeList p).symbol = internalNode then
      if (fin (bloc >>> 3) >>> (bloc &&& 7)) &&& 1 ≠ 0 then
        huffWalk huff fin depth (huff.nodeList p).right (bloc + 1)
      else huffWalk huff fin depth (huff.nodeList p).left (bloc + 1)
    else some (some p, bloc)

/-- `Huff_offsetReceive`: the symbol and the new offset, which stays where it was when the walk
leaves the tree. -/
def huffOffsetReceive (huff : HuffT) (fin : Mem QByte) (offset : ℕ) : Option (ℕ × ℕ) :=
  (huffWalk huff fin nodeCount huff.tree offset).map fun r =>
    match r with
    | (some p, bloc) => ((huff.nodeList p).symbol, bloc)
    | (none, _) => (0, offset)

/-! ## Packets -/

/-- `memmove` inside the storage of a message; outside of it the behaviour is undefined. -/
def msgMemmove (dst src n : ℕ) : MsgWriter Unit := fun msg =>
  if dst + n > msg.maxsize ∨ src + n > msg.maxsize then none
  else some ((), { msg with data := msg.data.blit dst (msg.data.slice src n) })

/-- How the loop of `Huff_CompressPacket` ends. -/
inductive HuffLoop
  | finished (buffer : Mem QByte) (outLen : ℕ)
  | overflow

/-- The loop of `Huff_CompressPacket` over the bytes of the packet. -/
def huffCompressLoop (huff : HuffT) (inLen : ℕ) : List QByte → (buffer : Mem QByte) → (outLen : ℕ) →
    Option HuffLoop
  | [], buffer, outLen => some (.finished buffer outLen)
  | ch :: data, buffer, outLen => do
    let (buffer, outLen) ← huffOffsetTransmit huff ch.toNat buffer outLen
    if outLen > inLen then some (.finished buffer outLen)
    else if outLen > maxOverallmsglen - 64 then some .overflow
    else huffCompressLoop huff inLen data buffer outLen

/-- `Huff_CompressPacket`. -/
def huffCompressPacket (huff : Huffman) (junk : Mem QByte) (offset : ℕ) : MsgWriter Unit := fun msg =>
  let inLen := msg.cursize - offset
  if inLen = 0 ∨ inLen ≥ maxOverallmsglen then some ((), msg)
  else
    (huffCompressLoop huff.compressor inLen (msg.data.slice offset inLen) junk 0).bind fun
      | .overflow => some ((), { msg with data := msg.data.store offset 0x80, cursize := offset + 1 })
      | .finished buffer outLen =>
        if outLen > inLen then
          (msgMemmove (offset + 1) offset inLen msg).map fun r =>
            ((), { r.2 with data := r.2.data.store offset 0x80, cursize := r.2.cursize + 1 })
        else
          -- `data[0] = (outLen<<3) - outLen`, and then `outLen` bytes of the buffer
          let msg :=
            { msg with
              data := msg.data.store offset (BitVec.ofNat 8 (outLen <<< 3 - outLen))
              cursize := offset + outLen + 1 }
          if msg.cursize > msg.maxsize then none
          else some ((), { msg with data := msg.data.blit (offset + 1) (buffer.slice 0 outLen) })

/-- A packet grows by at most one byte, whatever the tree. -/
theorem huffCompressPacket_cursize_le {huff : Huffman} {junk : Mem QByte} {offset : ℕ} {msg msg' : Sizebuf}
    {r : Unit} (h : (huffCompressPacket huff junk offset).run msg = some (r, msg')) :
    msg'.cursize ≤ msg.cursize + 1 := by
  change huffCompressPacket huff junk offset msg = _ at h
  unfold huffCompressPacket at h
  dsimp only at h
  split at h
  · cases h
    exact Nat.le_succ _
  · rename_i hlen
    obtain ⟨loop, -, h⟩ := bind_eq_some_iff.1 h
    cases loop with
    | overflow =>
      cases h
      dsimp only
      omega
    | finished buffer outLen =>
      dsimp only at h
      split at h
      · obtain ⟨s, hmove, hs⟩ := map_eq_some_iff.1 h
        unfold msgMemmove at hmove
        split at hmove
        · cases hmove
        · cases hmove
          cases hs
          exact le_refl _
      · split at h
        · cases h
        · cases h
          dsimp only
          omega

/-- The loop of `Huff_DecompressPacket`, with the bytes decoded so far; `rounds` is
`MAX_OVERALLMSGLEN - i`. -/
def huffDecompressLoop (huff : HuffT) (data : Mem QByte) (inLen : ℕ) : (rounds : ℕ) →
    (outLen : ℕ) → (buffer : List QByte) → Option (List QByte)
  | 0, outLen, buffer => if outLen < inLen then none else some buffer
  | rounds + 1, outLen, buffer =>
    if outLen < inLen then do
      let (ch, outLen) ← huffOffsetReceive huff data outLen
      huffDecompressLoop huff data inLen rounds outLen (buffer ++ [BitVec.ofNat 8 ch])
    else some buffer

/-- `Huff_DecompressPacket`. A negative number of bits counts as none. -/
def huffDecompressPacket (huff : Huffman) (offset : ℕ) : MsgWriter Unit := fun msg =>
  let inLen := msg.cursize - offset
  if inLen = 0 ∨ inLen ≥ maxOverallmsglen then some ((), msg)
  else
    let inBits := inLen <<< 3 - 8 - (msg.data offset).toNat
    if msg.data offset &&& 0x80 ≠ 0 then
      let msg := { msg with cursize := msg.cursize - 1 }
      msgMemmove offset (offset + 1) msg.cursize msg
    else
      let data : Mem QByte := fun i => msg.data (offset + 1 + i)
      (huffDecompressLoop huff.decompressor data inBits maxOverallmsglen 0 []).bind fun buffer =>
        let msg := { msg with cursize := offset + buffer.length }
        if msg.cursize > msg.maxsize then none
        else some ((), { msg with data := msg.data.blit offset buffer })

/-! ## The linked tree -/

/-- The nodes below `p`, whose parent is `parent`, are the tree `t`, and `loc` knows its leaves. -/
inductive Represents (huff : HuffT) : (p : ℕ) → (parent : Option ℕ) → PrefixTree ℕ → Prop
  | leaf {p parent s} : (huff.nodeList p).symbol = s → s ≠ internalNode →
      (huff.nodeList p).parent = parent → huff.loc s = some p → Represents huff p parent (.leaf s)
  | node {p parent l r tl tr} : (huff.nodeList p).symbol = internalNode →
      (huff.nodeList p).parent = parent → (huff.nodeList p).left = some l →
      (huff.nodeList p).right = some r → l ≠ r → Represents huff l (some p) tl →
      Represents huff r (some p) tr → Represents huff p parent (.node tl tr)

/-- A static tree for packets: `t` from its root on, with one leaf for every byte and none for
anything but bytes and `NYT`. -/
structure IsPacketTree (huff : HuffT) (t : PrefixTree ℕ) : Prop where
  root : ∃ p, huff.tree = some p ∧ Represents huff p none t
  nodup : t.leaves.Nodup
  le_nyt : ∀ s ∈ t.leaves, s ≤ nyt
  complete : ∀ b : QByte, b.toNat ∈ t.leaves

/-- The code of a byte. -/
def byteCode (t : PrefixTree ℕ) (b : QByte) : List Bool := t.code b.toNat

/-- The codes of a packet. -/
def packetBits (t : PrefixTree ℕ) (bs : List QByte) : List Bool := bs.flatMap (byteCode t)

variable {huff : HuffT} {t : PrefixTree ℕ}

theorem Represents.parent_eq {p : ℕ} {parent : Option ℕ} (h : Represents huff p parent t) :
    (huff.nodeList p).parent = parent := by
  cases h with
  | leaf _ _ hp _ => exact hp
  | node _ hp _ _ _ _ _ => exact hp

/-! ### Sending -/

theorem huffAddBit_eq (bit : Bool) (fout : Mem QByte) (bloc : ℕ) :
    huffAddBit bit (fout, bloc) = (putBit fout bloc bit, bloc + 1) := by
  have h7 : bloc &&& 7 = bloc % 8 := Nat.and_two_pow_sub_one_eq_mod bloc 3
  have h3 : bloc >>> 3 = bloc / 8 := Nat.shiftRight_eq_div_pow bloc 3
  simp only [huffAddBit, putBit, h7, h3]
  by_cases h0 : bloc % 8 = 0
  · simp [h0]
  · simp [h0]

/-- Sending a child sends its parent and then the turn. -/
theorem huffSend_child {n p c : ℕ} {out out' : Mem QByte × ℕ}
    (hc : (huff.nodeList c).parent = some p) (h : huffSend huff n p none out = some out') :
    huffSend huff (n + 1) c none out =
      some (huffAddBit ((huff.nodeList p).right = some c) out') := by
  cases n with
  | zero => cases h
  | succ n =>
    simp only [huffSend, hc] at h ⊢
    rw [h]
    rfl

/-- Sending a leaf below `p` sends `p` and then the turns from there. -/
theorem Represents.huffSend {p : ℕ} {parent : Option ℕ} (h : Represents huff p parent t)
    {bs : List Bool} {s : ℕ} (hs : t.Code bs s) :
    ∃ q, huff.loc s = some q ∧ ∀ n out fout bloc, huffSend huff n p none out = some (fout, bloc) →
      huffSend huff (n + bs.length) q none out =
        some (putBits fout bloc bs, bloc + bs.length) := by
  induction h generalizing bs with
  | leaf hsym hne hp hloc =>
    cases hs with
    | leaf => exact ⟨_, hloc, fun n out fout bloc h => h⟩
  | @node p parent l r tl tr hsym hp hleft hright hne hl hr ihl ihr =>
    cases hs with
    | @left _ _ bs _ hs =>
      obtain ⟨q, hq, hsend⟩ := ihl hs
      refine ⟨q, hq, fun n out fout bloc h => ?_⟩
      have hturn := huffSend_child hl.parent_eq h
      have hbit : ((huff.nodeList p).right = some l) = False := by simp [hright, Ne.symm hne]
      simp only [hbit, decide_false, huffAddBit_eq] at hturn
      have e := hsend (n + 1) out _ _ hturn
      rwa [Nat.add_assoc, Nat.add_comm 1, Nat.add_assoc, Nat.add_comm 1] at e
    | @right _ _ bs _ hs =>
      obtain ⟨q, hq, hsend⟩ := ihr hs
      refine ⟨q, hq, fun n out fout bloc h => ?_⟩
      have hturn := huffSend_child hr.parent_eq h
      simp only [hright, decide_true, huffAddBit_eq] at hturn
      have e := hsend (n + 1) out _ _ hturn
      rwa [Nat.add_assoc, Nat.add_comm 1, Nat.add_assoc, Nat.add_comm 1] at e

theorem IsPacketTree.code (h : IsPacketTree huff t) (b : QByte) : t.Code (byteCode t b) b.toNat :=
  PrefixTree.code_spec (h.complete b)

/-- A path of the tree is shorter than the node array. -/
theorem IsPacketTree.length_code_lt (h : IsPacketTree huff t) {bs : List Bool} {s : ℕ}
    (hs : t.Code bs s) : bs.length < nodeCount := by
  have hle : t.leaves.length ≤ (List.range (nyt + 1)).length :=
    (List.Nodup.subperm h.nodup fun s hs => mem_range.2 (by have := h.le_nyt s hs; omega)).length_le
  have hlt := hs.length_lt
  rw [length_range] at hle
  have : nyt + 1 < nodeCount := by decide
  omega

/-- **`Huff_offsetTransmit` appends the code of a byte.** -/
theorem huffOffsetTransmit_eq (h : IsPacketTree huff t) (b : QByte) (fout : Mem QByte)
    (offset : ℕ) : huffOffsetTransmit huff b.toNat fout offset =
      some (putBits fout offset (byteCode t b), offset + (byteCode t b).length) := by
  obtain ⟨p, -, hp⟩ := h.root
  obtain ⟨q, hq, hsend⟩ := hp.huffSend (h.code b)
  have hlen := h.length_code_lt (h.code b)
  have hroot : FteQuake.huffSend huff (nodeCount - (byteCode t b).length) p none (fout, offset) =
      some (fout, offset) := by
    rw [show nodeCount - (byteCode t b).length = nodeCount - (byteCode t b).length - 1 + 1 by omega,
      FteQuake.huffSend, hp.parent_eq]
  have e := hsend _ _ _ _ hroot
  rw [Nat.sub_add_cancel hlen.le] at e
  rw [huffOffsetTransmit, hq, bind_some, e]

/-! ### Receiving -/

theorem getBit_ne_zero (fin : Mem QByte) (bloc : ℕ) :
    (fin (bloc >>> 3) >>> (bloc &&& 7)) &&& 1 ≠ 0 ↔ bitAt fin bloc = true := by
  have h7 : bloc &&& 7 = bloc % 8 := Nat.and_two_pow_sub_one_eq_mod bloc 3
  have h3 : bloc >>> 3 = bloc / 8 := Nat.shiftRight_eq_div_pow bloc 3
  have h := BitFlags.and_shl_one_ne_zero (fin (bloc / 8) >>> (bloc % 8)) (i := 0) (by omega)
  rw [getLsbD_ushiftRight, Nat.add_zero] at h
  rw [h7, h3]
  exact h

/-- Walking from a node along the code of a leaf ends there. -/
theorem Represents.huffWalk {p : ℕ} {parent : Option ℕ} (h : Represents huff p parent t)
    {bs : List Bool} {s : ℕ} (hs : t.Code bs s) {fin : Mem QByte} {bloc n : ℕ}
    (hn : bs.length < n) (hbits : (bitAt fin).slice bloc bs.length = bs) :
    ∃ q, (huff.nodeList q).symbol = s ∧
      huffWalk huff fin n (some p) bloc = some (some q, bloc + bs.length) := by
  obtain ⟨n, rfl⟩ : ∃ m, n = m + 1 := ⟨n - 1, by omega⟩
  induction h generalizing bs bloc n with
  | @leaf p parent _ hsym hne hp hloc =>
    cases hs with
    | leaf =>
      refine ⟨p, hsym, ?_⟩
      rw [FteQuake.huffWalk, if_neg (by rw [hsym]; exact hne)]
      rfl
  | @node p parent l r tl tr hsym hp hleft hright hne hl hr ihl ihr =>
    rw [FteQuake.huffWalk, if_pos hsym]
    cases hs with
    | @left _ _ bs _ hs =>
      rw [List.length_cons, slice_succ] at hbits
      obtain ⟨hbit, hrest⟩ := List.cons.inj hbits
      obtain ⟨n, rfl⟩ : ∃ m, n = m + 1 := ⟨n - 1, by simp at hn; omega⟩
      obtain ⟨q, hq, hwalk⟩ := ihl hs hrest n (by simpa using hn)
      refine ⟨q, hq, ?_⟩
      rw [if_neg (by rw [getBit_ne_zero, hbit]; simp), hleft, hwalk, List.length_cons,
        Nat.add_assoc, Nat.add_comm 1]
    | @right _ _ bs _ hs =>
      rw [List.length_cons, slice_succ] at hbits
      obtain ⟨hbit, hrest⟩ := List.cons.inj hbits
      obtain ⟨n, rfl⟩ : ∃ m, n = m + 1 := ⟨n - 1, by simp at hn; omega⟩
      obtain ⟨q, hq, hwalk⟩ := ihr hs hrest n (by simpa using hn)
      refine ⟨q, hq, ?_⟩
      rw [if_pos (by rw [getBit_ne_zero, hbit]), hright, hwalk, List.length_cons,
        Nat.add_assoc, Nat.add_comm 1]

/-- **`Huff_offsetReceive` takes the code of a byte.** -/
theorem huffOffsetReceive_eq (h : IsPacketTree huff t) (b : QByte) {fin : Mem QByte} {offset : ℕ}
    (hbits : (bitAt fin).slice offset (byteCode t b).length = byteCode t b) :
    huffOffsetReceive huff fin offset = some (b.toNat, offset + (byteCode t b).length) := by
  obtain ⟨p, hp, hrep⟩ := h.root
  obtain ⟨q, hq, hwalk⟩ := hrep.huffWalk (h.code b) (h.length_code_lt (h.code b)) hbits
  rw [huffOffsetReceive, hp, hwalk, map_some, ← hq]

/-- With 256 symbols no code is empty. -/
theorem byteCode_length_pos (h : IsPacketTree huff t) (b : QByte) : 0 < (byteCode t b).length := by
  have hb := h.code b
  cases t with
  | leaf s =>
    have h0 := h.complete 0
    have h1 := h.complete 1
    rw [PrefixTree.leaves, mem_singleton] at h0 h1
    cases h0.trans h1.symm
  | node l r => exact length_pos_iff.2 hb.ne_nil

theorem length_le_packetBits (h : IsPacketTree huff t) (bs : List QByte) :
    bs.length ≤ (packetBits t bs).length := by
  induction bs with
  | nil => exact le_rfl
  | cons b bs ih =>
    have := byteCode_length_pos h b
    rw [packetBits, List.flatMap_cons, List.length_append, List.length_cons]
    exact Nat.add_comm 1 _ ▸ Nat.add_le_add this ih

theorem packetBits_append (bs cs : List QByte) :
    packetBits t (bs ++ cs) = packetBits t bs ++ packetBits t cs := flatMap_append

/-! ## The loops -/

/-- **The compressor's loop.** It writes the codes of the whole packet when they take no more bits
than the packet has bytes; otherwise it stops at the first byte that goes over this number, unless
the other limit comes first. -/
theorem huffCompressLoop_spec (h : IsPacketTree huff t) (junk : Mem QByte) {inLen : ℕ} {pre data : List QByte}
    (hpre : (packetBits t pre).length ≤ inLen) (hpre' : (packetBits t pre).length ≤ maxOverallmsglen - 64) :
    (∃ buffer outLen, huffCompressLoop huff inLen data (putBits junk 0 (packetBits t pre))
        (packetBits t pre).length = some (.finished buffer outLen) ∧
      (outLen ≤ inLen → outLen = (packetBits t (pre ++ data)).length ∧
        buffer = putBits junk 0 (packetBits t (pre ++ data))) ∧
      (inLen < outLen → inLen < (packetBits t (pre ++ data)).length) ∧
      ∀ bs, bs <+: pre ++ data → (packetBits t bs).length ≤ inLen →
        (packetBits t bs).length ≤ maxOverallmsglen - 64) ∨
    (huffCompressLoop huff inLen data (putBits junk 0 (packetBits t pre))
        (packetBits t pre).length = some .overflow ∧
      ∃ bs, bs <+: pre ++ data ∧ maxOverallmsglen - 64 < (packetBits t bs).length ∧
        (packetBits t bs).length ≤ inLen) := by
  have hmono : ∀ {bs cs : List QByte}, bs <+: cs →
      (packetBits t bs).length ≤ (packetBits t cs).length := by
    rintro bs _ ⟨ds, rfl⟩
    rw [packetBits_append, List.length_append]
    omega
  induction data generalizing pre with
  | nil =>
    refine .inl ⟨_, _, rfl, fun _ => by rw [append_nil]; exact ⟨rfl, rfl⟩, fun h => by omega, ?_⟩
    intro bs hbs _
    rw [append_nil] at hbs
    exact (hmono hbs).trans hpre'
  | cons ch data ih =>
    have hsplit : pre ++ ch :: data = (pre ++ [ch]) ++ data := by simp
    have hbits : packetBits t (pre ++ [ch]) = packetBits t pre ++ byteCode t ch := by
      rw [packetBits_append]
      simp [packetBits]
    have hlen : (packetBits t pre).length + (byteCode t ch).length =
        (packetBits t (pre ++ [ch])).length := by rw [hbits, List.length_append]
    have hbuf : putBits (putBits junk 0 (packetBits t pre)) (packetBits t pre).length
        (byteCode t ch) = putBits junk 0 (packetBits t (pre ++ [ch])) := by
      rw [hbits, putBits_append, Nat.zero_add]
    rw [huffCompressLoop, huffOffsetTransmit_eq h, hbuf, hlen, bind_eq_bind, bind_some]
    dsimp only
    rw [hsplit]
    by_cases hgrow : (packetBits t (pre ++ [ch])).length > inLen
    · rw [if_pos hgrow]
      refine .inl ⟨_, _, rfl, fun h => by omega, fun _ => ?_, fun bs hbs hle => ?_⟩
      · exact lt_of_lt_of_le hgrow (hmono (prefix_append _ _))
      · -- a prefix is one of what came before, or goes over the number of bytes
        rcases prefix_or_prefix_of_prefix hbs (prefix_append (pre ++ [ch]) data) with hb | hb
        · rcases prefix_concat_iff.1 hb with rfl | hb
          · omega
          · exact (hmono hb).trans hpre'
        · have := hmono hb
          omega
    · rw [if_neg hgrow]
      by_cases hover : (packetBits t (pre ++ [ch])).length > maxOverallmsglen - 64
      · rw [if_pos hover]
        exact .inr ⟨rfl, pre ++ [ch], prefix_append _ _, hover, by omega⟩
      · rw [if_neg hover]
        exact ih (by omega) (by omega)

/-- Decoding goes on while bits are left, and keeps what it has. -/
theorem huffDecompressLoop_length {data : Mem QByte} {inLen rounds outLen : ℕ} {buffer result : List QByte}
    (h : huffDecompressLoop huff data inLen rounds outLen buffer = some result) :
    buffer.length ≤ result.length ∧ (outLen < inLen → buffer.length < result.length) := by
  induction rounds generalizing outLen buffer with
  | zero =>
    rw [huffDecompressLoop] at h
    split at h
    · cases h
    · cases h
      exact ⟨le_rfl, fun _ => by omega⟩
  | succ rounds ih =>
    rw [huffDecompressLoop] at h
    split at h
    · obtain ⟨⟨ch, outLen'⟩, -, h⟩ := bind_eq_some_iff.1 h
      have e := (ih h).1
      rw [List.length_append, length_singleton] at e
      exact ⟨by omega, fun _ => by omega⟩
    · cases h
      exact ⟨le_rfl, fun _ => by omega⟩

/-- The decompressor's loop over the codes of `bs`, while these are the bits and bits are left. -/
theorem huffDecompressLoop_eq (h : IsPacketTree huff t) {data : Mem QByte} {inLen : ℕ}
    {rounds outLen : ℕ} {buffer bs : List QByte} (hrounds : bs.length ≤ rounds)
    (hbits : (bitAt data).slice outLen (packetBits t bs).length = packetBits t bs)
    (hin : outLen + (packetBits t bs).length ≤ inLen) :
    huffDecompressLoop huff data inLen rounds outLen buffer =
      huffDecompressLoop huff data inLen (rounds - bs.length)
        (outLen + (packetBits t bs).length) (buffer ++ bs) := by
  induction bs generalizing rounds outLen buffer with
  | nil => simp [packetBits]
  | cons b bs ih =>
    obtain ⟨rounds, rfl⟩ : ∃ m, rounds = m + 1 := ⟨rounds - 1, by simp at hrounds; omega⟩
    have hsplit : packetBits t (b :: bs) = byteCode t b ++ packetBits t bs := List.flatMap_cons
    rw [hsplit, List.length_append] at hbits hin
    obtain ⟨hb, hbs⟩ := slice_eq_append hbits
    have hpos := byteCode_length_pos h b
    rw [huffDecompressLoop, if_pos (by omega), huffOffsetReceive_eq h b hb, bind_eq_bind,
      bind_some]
    dsimp only
    rw [ih (by simpa using hrounds) hbs (by omega), ofNat_toNat, setWidth_eq, hsplit,
      List.length_append, List.length_cons, Nat.add_sub_add_right, Nat.add_assoc, List.append_assoc]
    rfl

/-! ## Packets -/

/-- The bytes to compress. -/
def packetBytes (msg : Sizebuf) (offset : ℕ) : List QByte :=
  msg.data.slice offset (msg.cursize - offset)

/-- **Compression is transparent** for a packet: whatever the compressor's buffer held, the
compressed packet is at most a byte longer and decompressing it restores the packet. -/
def Transparent (huff : Huffman) (msg : Sizebuf) (offset : ℕ) : Prop :=
  ∀ junk, ∃ msg' msg'', (huffCompressPacket huff junk offset).run msg = some ((), msg') ∧
    msg'.cursize ≤ msg.cursize + 1 ∧
    (huffDecompressPacket huff offset).run msg' = some ((), msg'') ∧
    msg''.cursize = msg.cursize ∧ msg''.contents = msg.contents

/-- Some prefix of the packet runs into the limit of the compressor's buffer, and does so before
the packet is found to grow. -/
def Overflows (t : PrefixTree ℕ) (bs : List QByte) : Prop :=
  ∃ cs, cs <+: bs ∧ maxOverallmsglen - 64 < (packetBits t cs).length ∧
    (packetBits t cs).length ≤ bs.length

/-- What is sent for a packet that would have grown. -/
def grownPacket (msg : Sizebuf) (offset : ℕ) : Sizebuf :=
  { msg with
    data := (msg.data.blit (offset + 1) (packetBytes msg offset)).store offset 0x80
    cursize := msg.cursize + 1 }

/-- What is sent after an overflow. -/
def overflowedPacket (msg : Sizebuf) (offset : ℕ) : Sizebuf :=
  { msg with data := msg.data.store offset 0x80, cursize := offset + 1 }

/-- What is sent for a packet of `n` bits. -/
def packedPacket (msg : Sizebuf) (offset : ℕ) (buffer : Mem QByte) (n : ℕ) : Sizebuf :=
  { msg with
    data := (msg.data.store offset (BitVec.ofNat 8 (7 * n))).blit (offset + 1) (buffer.slice 0 n)
    cursize := offset + n + 1 }

section Packet

variable {huff : Huffman} {t : PrefixTree ℕ} {msg : Sizebuf} {offset : ℕ}

theorem length_packetBytes (msg : Sizebuf) (offset : ℕ) :
    (packetBytes msg offset).length = msg.cursize - offset :=
  length_slice _ _ _

/-- **What `Huff_CompressPacket` sends.** -/
theorem huffCompressPacket_run (h : IsPacketTree huff.compressor t) (junk : Mem QByte) (hlen : offset < msg.cursize)
    (hmax : msg.cursize - offset < maxOverallmsglen) (hroom : msg.cursize + 1 ≤ msg.maxsize) :
    (Overflows t (packetBytes msg offset) ∧
      (huffCompressPacket huff junk offset).run msg = some ((), overflowedPacket msg offset)) ∨
    (¬Overflows t (packetBytes msg offset) ∧
      msg.cursize - offset < (packetBits t (packetBytes msg offset)).length ∧
      (huffCompressPacket huff junk offset).run msg = some ((), grownPacket msg offset)) ∨
    (¬Overflows t (packetBytes msg offset) ∧
      (packetBits t (packetBytes msg offset)).length ≤ msg.cursize - offset ∧
      (huffCompressPacket huff junk offset).run msg = some ((), packedPacket msg offset
        (putBits junk 0 (packetBits t (packetBytes msg offset)))
        (packetBits t (packetBytes msg offset)).length)) := by
  have hspec := @huffCompressLoop_spec _ _ h junk (msg.cursize - offset) []
    (packetBytes msg offset) (Nat.zero_le _) (Nat.zero_le _)
  rw [nil_append] at hspec
  rw [Overflows, length_packetBytes]
  have hrun : (huffCompressPacket huff junk offset).run msg = huffCompressPacket huff junk offset msg :=
    rfl
  rw [hrun, huffCompressPacket, if_neg (by omega)]
  rcases hspec with ⟨buffer, outLen, hloop, hfits, hgrows, hpre⟩ | ⟨hloop, hover⟩
  · have hloop : huffCompressLoop huff.compressor (msg.cursize - offset)
        (msg.data.slice offset (msg.cursize - offset)) junk 0 = some (.finished buffer outLen) := hloop
    have hno : ¬∃ cs, cs <+: packetBytes msg offset ∧ maxOverallmsglen - 64 < (packetBits t cs).length ∧
        (packetBits t cs).length ≤ msg.cursize - offset := by
      rintro ⟨cs, hcs, hlt, hle⟩
      have := hpre cs hcs hle
      omega
    rw [hloop, bind_some]
    by_cases hgrow : msg.cursize - offset < outLen
    · refine .inr (.inl ⟨hno, hgrows hgrow, ?_⟩)
      dsimp only
      rw [if_pos hgrow, msgMemmove, if_neg (by omega)]
      rfl
    · obtain ⟨rfl, rfl⟩ := hfits (by omega)
      refine .inr (.inr ⟨hno, by omega, ?_⟩)
      dsimp only
      rw [if_neg hgrow, if_neg (by omega), packedPacket, Nat.shiftLeft_eq,
        show (packetBits t (packetBytes msg offset)).length * 2 ^ 3 - (packetBits t (packetBytes msg offset)).length =
          7 * (packetBits t (packetBytes msg offset)).length by omega]
  · have hloop : huffCompressLoop huff.compressor (msg.cursize - offset)
        (msg.data.slice offset (msg.cursize - offset)) junk 0 = some .overflow := hloop
    refine .inl ⟨hover, ?_⟩
    rw [hloop]
    rfl

/-! ### Decompressing -/

theorem contents_eq_append (hlen : offset ≤ msg.cursize) :
    msg.contents = msg.data.slice 0 offset ++ packetBytes msg offset := by
  rw [Sizebuf.contents, packetBytes, ← Nat.add_sub_of_le hlen, slice_add, Nat.zero_add, Nat.add_sub_cancel_left]

/-- A packet marked with a high bit in front is moved down by a byte, if the move stays inside the
storage. -/
theorem huffDecompressPacket_marked {msg : Sizebuf} (hlen : offset < msg.cursize)
    (hmax : msg.cursize - offset < maxOverallmsglen) (hmark : msg.data offset &&& 0x80 ≠ 0) :
    (huffDecompressPacket huff offset).run msg =
      if offset + msg.cursize ≤ msg.maxsize then
        some ((), { msg with
          data := msg.data.blit offset (msg.data.slice (offset + 1) (msg.cursize - 1))
          cursize := msg.cursize - 1 })
      else none := by
  show huffDecompressPacket huff offset msg = _
  rw [huffDecompressPacket, if_neg (by omega)]
  dsimp only
  rw [if_pos hmark, msgMemmove]
  by_cases h : offset + msg.cursize ≤ msg.maxsize
  · rw [if_pos h, if_neg (by dsimp only; omega)]
  · rw [if_neg h, if_pos (by dsimp only; omega)]

/-- Decompressing a packet that would have grown restores it, if the decompressor accepts its
length and moves no byte outside the storage. -/
theorem huffDecompressPacket_grown (hlen : offset < msg.cursize) (hmax : msg.cursize - offset < maxOverallmsglen - 1)
    (hroom : offset + msg.cursize + 1 ≤ msg.maxsize) :
    ∃ msg'', (huffDecompressPacket huff offset).run (grownPacket msg offset) = some ((), msg'') ∧
      msg''.cursize = msg.cursize ∧ msg''.contents = msg.contents := by
  have hm : maxOverallmsglen = 65536 := rfl
  have hc : (grownPacket msg offset).cursize = msg.cursize + 1 := rfl
  have hmark : (grownPacket msg offset).data offset = 0x80 := store_self _ _ _
  have hrun : (huffDecompressPacket huff offset).run (grownPacket msg offset) = _ :=
    huffDecompressPacket_marked (by omega) (by omega) (by rw [hmark]; decide)
  have hmaxsize : (grownPacket msg offset).maxsize = msg.maxsize := rfl
  rw [if_pos (by omega), hc, Nat.add_sub_cancel] at hrun
  refine ⟨_, hrun, rfl, ?_⟩
  rw [contents_eq_append hlen.le, contents_eq_append (show offset ≤ _ by dsimp only; omega)]
  -- the packet sits one byte further on and is moved down; what is before it stays
  have hmoved : (grownPacket msg offset).data.slice (offset + 1) (msg.cursize - offset) = packetBytes msg offset := by
    rw [grownPacket, store_eq_blit, slice_blit_after _ _ (by simp)]
    have e := slice_blit_self msg.data (offset + 1) (packetBytes msg offset)
    rwa [length_packetBytes] at e
  congr 1
  · rw [slice_blit_before _ _ (by omega), grownPacket, store_eq_blit,
      slice_blit_before _ _ (by omega), slice_blit_before _ _ (by omega)]
  · rw [packetBytes]
    dsimp only
    have hsplit : (grownPacket msg offset).data.slice (offset + 1) msg.cursize =
        packetBytes msg offset ++ (grownPacket msg offset).data.slice (offset + 1 + (msg.cursize - offset)) offset := by
      rw [← hmoved, ← slice_add, Nat.sub_add_cancel hlen.le]
    rw [hsplit, blit_append, slice_blit_before _ _ (by rw [length_packetBytes])]
    have e := slice_blit_self (grownPacket msg offset).data offset (packetBytes msg offset)
    rwa [length_packetBytes] at e

/-- The longest packet that can be compressed is not decompressed after it has grown. -/
theorem huffDecompressPacket_grown_max (hmax : msg.cursize - offset = maxOverallmsglen - 1)
    (hlen : offset < msg.cursize) :
    (huffDecompressPacket huff offset).run (grownPacket msg offset) =
      some ((), grownPacket msg offset) := by
  have hm : maxOverallmsglen = 65536 := rfl
  have hc : (grownPacket msg offset).cursize = msg.cursize + 1 := rfl
  show huffDecompressPacket huff offset (grownPacket msg offset) = _
  rw [huffDecompressPacket, if_pos (by rw [hc]; omega)]

/-! ### Decompressing a packed packet -/

section Packed

variable (msg offset) (junk : Mem QByte) (bs : List Bool)

theorem packedPacket_mark (buffer : Mem QByte) (n : ℕ) :
    (packedPacket msg offset buffer n).data offset = BitVec.ofNat 8 (7 * n) :=
  (blit_apply_lt _ _ (by omega)).trans (store_self _ _ _)

theorem packedPacket_data (buffer : Mem QByte) {n i : ℕ} (hi : i < n) :
    (packedPacket msg offset buffer n).data (offset + 1 + i) = buffer i :=
  (blit_apply_add _ _ _ (by simpa using hi)).trans
    (by rw [getElem_slice, Nat.zero_add])

/-- The bits of a packed packet are the codes. -/
theorem packedPacket_bits :
    (bitAt fun i => (packedPacket msg offset (putBits junk 0 bs) bs.length).data
      (offset + 1 + i)).slice 0 bs.length = bs := by
  have hbuf := slice_putBits (clear_of_mod_eq_zero (m := junk) (j := 0) rfl) bs
  refine Eq.trans (slice_congr fun k _ hk => ?_) hbuf
  rw [bitAt, bitAt, packedPacket_data _ _ _ (by omega)]

/-- The bytes after those that hold bits are what was in the buffer before. -/
theorem putBits_untouched {p : ℕ} (hp : bs.length ≤ 8 * p) : putBits junk 0 bs p = junk p := by
  refine eq_of_getLsbD_eq fun i hi => ?_
  have e := bitAt_putBits_ge (clear_of_mod_eq_zero (m := junk) (j := 0) rfl) bs (k := 8 * p + i) (by omega)
  rwa [bitAt, bitAt, show (8 * p + i) / 8 = p by omega, show (8 * p + i) % 8 = i by omega] at e

end Packed

/-- A packet without the mark is decoded. -/
theorem huffDecompressPacket_unmarked {msg : Sizebuf} (hlen : offset < msg.cursize)
    (hmax : msg.cursize - offset < maxOverallmsglen) (hmark : msg.data offset &&& 0x80 = 0) :
    (huffDecompressPacket huff offset).run msg =
      (huffDecompressLoop huff.decompressor (fun i => msg.data (offset + 1 + i))
        (8 * (msg.cursize - offset) - 8 - (msg.data offset).toNat) maxOverallmsglen 0 []).bind
        fun buffer =>
          if offset + buffer.length > msg.maxsize then none
          else some ((), { msg with
            data := msg.data.blit offset buffer
            cursize := offset + buffer.length }) := by
  show huffDecompressPacket huff offset msg = _
  rw [huffDecompressPacket, if_neg (by omega)]
  dsimp only
  rw [if_neg (by simpa using hmark), Nat.shiftLeft_eq, Nat.mul_comm _ (2 ^ 3)]

theorem and_mark_eq_zero_iff {n : ℕ} : BitVec.ofNat 8 n &&& 0x80 = 0 ↔ n % 256 < 128 := by
  have h := BitFlags.and_shl_one_ne_zero (BitVec.ofNat 8 n) (i := 7) (by omega)
  rw [BitFlags.getLsbD_ofNat (by omega), decide_eq_true_iff] at h
  rw [← not_iff_not]
  exact h.trans (by omega)

/-- **A packed packet of at most eighteen bytes is restored.** -/
theorem huffDecompressPacket_packed (h : IsPacketTree huff.decompressor t) (junk : Mem QByte)
    (hlen : offset < msg.cursize) (hshort : msg.cursize - offset ≤ 18)
    (hfit : (packetBits t (packetBytes msg offset)).length ≤ msg.cursize - offset) (hroom : msg.cursize ≤ msg.maxsize) :
    ∃ msg'', (huffDecompressPacket huff offset).run (packedPacket msg offset
        (putBits junk 0 (packetBits t (packetBytes msg offset)))
        (packetBits t (packetBytes msg offset)).length) = some ((), msg'') ∧
      msg''.cursize = msg.cursize ∧ msg''.contents = msg.contents := by
  have hm : maxOverallmsglen = 65536 := rfl
  have hbits := packedPacket_bits msg offset junk (packetBits t (packetBytes msg offset))
  have hmark := packedPacket_mark msg offset (putBits junk 0 (packetBits t (packetBytes msg offset)))
    (packetBits t (packetBytes msg offset)).length
  have hbytes := length_packetBytes msg offset
  generalize hsent : packedPacket msg offset (putBits junk 0 (packetBits t (packetBytes msg offset)))
    (packetBits t (packetBytes msg offset)).length = sent at hbits hmark ⊢
  have hc : sent.cursize = offset + (packetBits t (packetBytes msg offset)).length + 1 := by
    rw [← hsent]
    rfl
  have hloop := @huffDecompressLoop_eq _ _ h _ (packetBits t (packetBytes msg offset)).length
    maxOverallmsglen 0 [] (packetBytes msg offset) (by omega) hbits (by omega)
  have h7 : 7 * (packetBits t (packetBytes msg offset)).length % 256 =
      7 * (packetBits t (packetBytes msg offset)).length := Nat.mod_eq_of_lt (by omega)
  have hrun : (huffDecompressPacket huff offset).run sent = _ :=
    huffDecompressPacket_unmarked (by omega) (by omega) (by rw [hmark, and_mark_eq_zero_iff, h7]; omega)
  have hin : 8 * (sent.cursize - offset) - 8 - (sent.data offset).toNat =
      (packetBits t (packetBytes msg offset)).length := by
    rw [hmark, toNat_ofNat, show (2 : ℕ) ^ 8 = 256 from rfl, h7]
    omega
  have hdone : ∀ rounds buffer, huffDecompressLoop huff.decompressor
      (fun i => sent.data (offset + 1 + i)) (packetBits t (packetBytes msg offset)).length rounds
      (packetBits t (packetBytes msg offset)).length buffer = some buffer := fun rounds buffer => by
    cases rounds <;> rw [huffDecompressLoop, if_neg (by omega)]
  have hmaxsize : sent.maxsize = msg.maxsize := by
    rw [← hsent]
    rfl
  rw [hin, hloop, Nat.zero_add, hdone, nil_append, bind_some, if_neg (by omega)] at hrun
  refine ⟨_, hrun, by dsimp only; omega, ?_⟩
  rw [contents_eq_append hlen.le, contents_eq_append (show offset ≤ _ by dsimp only; omega)]
  congr 1
  · rw [slice_blit_before _ _ (by omega), ← hsent, packedPacket,
      slice_blit_before _ _ (by omega), store_eq_blit, slice_blit_before _ _ (by omega)]
  · rw [packetBytes]
    dsimp only
    rw [Nat.add_sub_cancel_left]
    exact slice_blit_self _ _ _

theorem data_eq_of_contents_eq {msg msg' : Sizebuf} (h : msg'.contents = msg.contents) {i : ℕ}
    (hi : i < msg.cursize) : msg'.data i = msg.data i := by
  have hlen := congrArg List.length h
  rw [Sizebuf.length_contents, Sizebuf.length_contents] at hlen
  have e := getElem_of_eq h (i := i) (by rw [Sizebuf.length_contents]; omega)
  simpa only [Sizebuf.contents, getElem_slice, Nat.zero_add] using e

theorem not_self_ne (b : QByte) : ~~~b ≠ b := by
  intro e
  have := congrArg (fun x => BitVec.getLsbD x 0) e
  simp at this

/-- **A packed packet of nineteen bytes or more is not**, for some contents of the compressor's
buffer. Its bytes are all the symbol of one bit, so it has as many bits as bytes. -/
theorem huffDecompressPacket_packed_long (h : IsPacketTree huff.decompressor t) (hlen : offset < msg.cursize)
    (hmax : msg.cursize - offset ≤ maxOverallmsglen - 64) (hlong : 18 < msg.cursize - offset)
    (hfit : (packetBits t (packetBytes msg offset)).length ≤ msg.cursize - offset) :
    ∃ junk, ∀ msg'', (huffDecompressPacket huff offset).run (packedPacket msg offset
        (putBits junk 0 (packetBits t (packetBytes msg offset)))
        (packetBits t (packetBytes msg offset)).length) = some ((), msg'') →
      msg''.cursize = msg.cursize → msg''.contents ≠ msg.contents := by
  have hm : maxOverallmsglen = 65536 := rfl
  have hbytes := length_packetBytes msg offset
  have hge := length_le_packetBits h (packetBytes msg offset)
  have hn : (packetBits t (packetBytes msg offset)).length = msg.cursize - offset := by omega
  -- every byte of the buffer differs from the last byte of the packet
  refine ⟨fun _ => ~~~(msg.data (msg.cursize - 1)), fun msg'' hrun hcur hcont => ?_⟩
  have hbits := packedPacket_bits msg offset (fun _ => ~~~(msg.data (msg.cursize - 1)))
    (packetBits t (packetBytes msg offset))
  have hmark := packedPacket_mark msg offset (putBits (fun _ => ~~~(msg.data (msg.cursize - 1))) 0
    (packetBits t (packetBytes msg offset))) (packetBits t (packetBytes msg offset)).length
  have hlast := packedPacket_data msg offset (putBits (fun _ => ~~~(msg.data (msg.cursize - 1))) 0
    (packetBits t (packetBytes msg offset))) (n := (packetBits t (packetBytes msg offset)).length)
    (i := msg.cursize - offset - 1) (by omega)
  rw [putBits_untouched _ _ (by omega)] at hlast
  generalize hsent : packedPacket msg offset (putBits (fun _ => ~~~(msg.data (msg.cursize - 1))) 0
    (packetBits t (packetBytes msg offset))) (packetBits t (packetBytes msg offset)).length = sent
    at hrun hbits hmark hlast
  have hc : sent.cursize = msg.cursize + 1 := by
    rw [← hsent, packedPacket]
    dsimp only
    omega
  by_cases h128 : 7 * (packetBits t (packetBytes msg offset)).length % 256 < 128
  · -- more bits are decoded than there are
    rw [huffDecompressPacket_unmarked (by omega) (by omega)
      (by rw [hmark, and_mark_eq_zero_iff]; exact h128)] at hrun
    obtain ⟨buffer, hloop, hrun⟩ := bind_eq_some_iff.1 hrun
    have hin : (packetBits t (packetBytes msg offset)).length <
        8 * (sent.cursize - offset) - 8 - (sent.data offset).toNat := by
      rw [hmark, toNat_ofNat]
      omega
    rw [huffDecompressLoop_eq h (by omega) hbits (by omega), Nat.zero_add] at hloop
    have hmore := (huffDecompressLoop_length hloop).2 hin
    rw [nil_append] at hmore
    split at hrun
    · cases hrun
    · obtain ⟨-, rfl⟩ := Prod.mk.inj (some.inj hrun)
      dsimp only at hcur
      omega
  · -- the packet is taken for one that has grown
    rw [huffDecompressPacket_marked (by omega) (by omega)
      (by rw [hmark, ne_eq, and_mark_eq_zero_iff]; exact h128)] at hrun
    split at hrun
    · obtain ⟨-, rfl⟩ := Prod.mk.inj (some.inj hrun)
      have e := data_eq_of_contents_eq hcont (i := offset + (msg.cursize - offset - 1)) (by omega)
      dsimp only at e
      rw [blit_apply_add _ _ _ (by rw [length_slice]; omega), getElem_slice, hlast,
        show offset + (msg.cursize - offset - 1) = msg.cursize - 1 by omega] at e
      exact not_self_ne _ e
    · cases hrun

/-! ### Transparency -/

theorem transparent_of_packed (hc : IsPacketTree huff.compressor t) (hd : IsPacketTree huff.decompressor t)
    (hlen : offset < msg.cursize) (hroom : msg.cursize + 1 ≤ msg.maxsize) (hshort : msg.cursize - offset ≤ 18)
    (hfit : (packetBits t (packetBytes msg offset)).length ≤ msg.cursize - offset) :
    Transparent huff msg offset := by
  have hm : maxOverallmsglen = 65536 := rfl
  have hbytes := length_packetBytes msg offset
  intro junk
  rcases huffCompressPacket_run hc junk hlen (by omega) hroom with
    ⟨⟨cs, -, hlt, hle⟩, -⟩ | ⟨-, hgrow, -⟩ | ⟨-, -, hrun⟩
  · omega
  · omega
  · obtain ⟨msg'', hrun', hcur, hcont⟩ :=
      huffDecompressPacket_packed hd junk hlen hshort hfit (by omega)
    refine ⟨_, msg'', hrun, ?_, hrun', hcur, hcont⟩
    rw [packedPacket]
    dsimp only
    omega

theorem transparent_of_grown (hc : IsPacketTree huff.compressor t) (hlen : offset < msg.cursize)
    (hmax : msg.cursize - offset < maxOverallmsglen - 1) (hroom : offset + msg.cursize + 1 ≤ msg.maxsize)
    (hgrow : msg.cursize - offset < (packetBits t (packetBytes msg offset)).length)
    (hover : ¬Overflows t (packetBytes msg offset)) : Transparent huff msg offset := by
  intro junk
  rcases huffCompressPacket_run hc junk hlen (by omega) (by omega) with
    ⟨h, -⟩ | ⟨-, -, hrun⟩ | ⟨-, hfit, -⟩
  · exact absurd h hover
  · obtain ⟨msg'', hrun', hcur, hcont⟩ := @huffDecompressPacket_grown huff msg offset hlen hmax hroom
    exact ⟨_, msg'', hrun, le_rfl, hrun', hcur, hcont⟩
  · omega

theorem not_transparent_of_packed (hc : IsPacketTree huff.compressor t) (hd : IsPacketTree huff.decompressor t)
    (hlen : offset < msg.cursize) (hmax : msg.cursize - offset < maxOverallmsglen)
    (hroom : msg.cursize + 1 ≤ msg.maxsize) (hlong : 18 < msg.cursize - offset)
    (hfit : (packetBits t (packetBytes msg offset)).length ≤ msg.cursize - offset)
    (hover : ¬Overflows t (packetBytes msg offset)) : ¬Transparent huff msg offset := by
  intro h
  have hbytes := length_packetBytes msg offset
  have hge := length_le_packetBits hd (packetBytes msg offset)
  have hle : msg.cursize - offset ≤ maxOverallmsglen - 64 := by
    by_contra hlt
    exact hover ⟨_, prefix_rfl, by omega, by omega⟩
  obtain ⟨junk, hjunk⟩ := huffDecompressPacket_packed_long hd hlen hle hlong hfit
  obtain ⟨msg', msg'', hrun, -, hrun', hcur, hcont⟩ := h junk
  rcases huffCompressPacket_run hc junk hlen hmax hroom with ⟨h, -⟩ | ⟨-, hgrow, -⟩ | ⟨-, -, e⟩
  · exact hover h
  · omega
  · obtain ⟨-, rfl⟩ := Prod.mk.inj (some.inj (e.symm.trans hrun))
    exact hjunk msg'' hrun' hcur hcont

theorem not_transparent_of_grown (hc : IsPacketTree huff.compressor t) (hlen : offset < msg.cursize)
    (hmax : msg.cursize - offset < maxOverallmsglen) (hroom : msg.cursize + 1 ≤ msg.maxsize)
    (hgrow : msg.cursize - offset < (packetBits t (packetBytes msg offset)).length)
    (hover : ¬Overflows t (packetBytes msg offset))
    (hbad : msg.cursize - offset = maxOverallmsglen - 1 ∨ msg.maxsize < offset + msg.cursize + 1) :
    ¬Transparent huff msg offset := by
  intro h
  have hm : maxOverallmsglen = 65536 := rfl
  obtain ⟨msg', msg'', hrun, -, hrun', hcur, -⟩ := h fun _ => 0
  rcases huffCompressPacket_run hc (fun _ => 0) hlen hmax hroom with ⟨h, -⟩ | ⟨-, -, e⟩ | ⟨-, hfit, -⟩
  · exact hover h
  · obtain ⟨-, rfl⟩ := Prod.mk.inj (some.inj (e.symm.trans hrun))
    have hc' : (grownPacket msg offset).cursize = msg.cursize + 1 := rfl
    have hmaxsize : (grownPacket msg offset).maxsize = msg.maxsize := rfl
    have hmark : (grownPacket msg offset).data offset = 0x80 := store_self _ _ _
    by_cases hfull : msg.cursize - offset = maxOverallmsglen - 1
    · rw [huffDecompressPacket_grown_max hfull hlen] at hrun'
      obtain ⟨-, rfl⟩ := Prod.mk.inj (some.inj hrun')
      omega
    · rw [huffDecompressPacket_marked (by omega) (by omega) (by rw [hmark]; decide),
        if_neg (by omega)] at hrun'
      cases hrun'
  · omega

theorem not_transparent_of_overflows (hc : IsPacketTree huff.compressor t)
    (hlen : offset < msg.cursize) (hmax : msg.cursize - offset < maxOverallmsglen)
    (hroom : msg.cursize + 1 ≤ msg.maxsize) (hover : Overflows t (packetBytes msg offset)) :
    ¬Transparent huff msg offset := by
  intro h
  have hm : maxOverallmsglen = 65536 := rfl
  obtain ⟨msg', msg'', hrun, -, hrun', hcur, -⟩ := h fun _ => 0
  rcases huffCompressPacket_run hc (fun _ => 0) hlen hmax hroom with ⟨-, e⟩ | ⟨h, -⟩ | ⟨h, -⟩
  · obtain ⟨-, rfl⟩ := Prod.mk.inj (some.inj (e.symm.trans hrun))
    have hc' : (overflowedPacket msg offset).cursize = offset + 1 := rfl
    have hmark : (overflowedPacket msg offset).data offset = 0x80 := store_self _ _ _
    rw [huffDecompressPacket_marked (by omega) (by omega) (by rw [hmark]; decide)] at hrun'
    split at hrun'
    · obtain ⟨-, rfl⟩ := Prod.mk.inj (some.inj hrun')
      dsimp only at hcur
      omega
    · cases hrun'
  · exact h hover
  · exact h hover

/-- **Which packets compression restores.** Those of at most eighteen bytes that take no more bits
than bytes; and those that take more, when they do not run into the limit of the compressor's
buffer, when the decompressor accepts a byte more than their length, and when the storage has room
for the move by which they are restored. -/
theorem transparent_iff (hc : IsPacketTree huff.compressor t)
    (hd : IsPacketTree huff.decompressor t) (hlen : offset < msg.cursize)
    (hmax : msg.cursize - offset < maxOverallmsglen) (hroom : msg.cursize + 1 ≤ msg.maxsize) :
    Transparent huff msg offset ↔
      ((packetBits t (packetBytes msg offset)).length ≤ msg.cursize - offset ∧
        msg.cursize - offset ≤ 18) ∨
      (msg.cursize - offset < (packetBits t (packetBytes msg offset)).length ∧
        ¬Overflows t (packetBytes msg offset) ∧ msg.cursize - offset < maxOverallmsglen - 1 ∧
        offset + msg.cursize + 1 ≤ msg.maxsize) := by
  constructor
  · intro h
    have hover : ¬Overflows t (packetBytes msg offset) := fun ho =>
      not_transparent_of_overflows hc hlen hmax hroom ho h
    rcases Nat.lt_or_ge (msg.cursize - offset) (packetBits t (packetBytes msg offset)).length with
      hgrow | hfit
    · refine .inr ⟨hgrow, hover, ?_⟩
      by_contra hbad
      exact not_transparent_of_grown hc hlen hmax hroom hgrow hover (by omega) h
    · refine .inl ⟨hfit, ?_⟩
      by_contra hlong
      exact not_transparent_of_packed hc hd hlen hmax hroom (by omega) hfit hover h
  · rintro (⟨hfit, hshort⟩ | ⟨hgrow, hover, hmax', hroom'⟩)
    · exact transparent_of_packed hc hd hlen hroom hshort hfit
    · exact transparent_of_grown hc hlen hmax' hroom' hgrow hover

end Packet

/-! ### A tree with a symbol of one bit -/

/-- The tree that lists the symbols `255 - n`, …, `255`: symbol `s` has `s` turns to the right and
then one to the left. -/
def chainTree : ℕ → PrefixTree ℕ
  | 0 => .leaf 255
  | n + 1 => .node (.leaf (254 - n)) (chainTree n)

/-- The nodes of the tree `chainTree 255`: the inner ones even, the leaf of symbol `s` after its
parent. -/
def chainHuff : HuffT where
  tree := some 0
  loc s := if s < 255 then some (2 * s + 1) else if s = 255 then some 510 else none
  nodeList i :=
    if i % 2 = 1 then ⟨none, none, some (i - 1), i / 2⟩
    else if i = 510 then ⟨none, none, some 508, 255⟩
    else ⟨some (i + 1), some (i + 2), if i = 0 then none else some (i - 2), internalNode⟩

theorem leaves_chainTree {n : ℕ} (hn : n ≤ 255) :
    (chainTree n).leaves = List.range' (255 - n) (n + 1) := by
  induction n with
  | zero => rfl
  | succ n ih =>
    rw [chainTree, PrefixTree.leaves, ih (by omega), PrefixTree.leaves,
      show 255 - (n + 1) = 254 - n by omega, show 255 - n = 254 - n + 1 by omega]
    rfl

theorem represents_chainTree {n : ℕ} (hn : n ≤ 255) :
    Represents chainHuff (2 * (255 - n))
      (if n = 255 then none else some (2 * (255 - n) - 2)) (chainTree n) := by
  induction n with
  | zero => exact .leaf rfl (by decide) rfl rfl
  | succ n ih =>
    have hleft : Represents chainHuff (2 * (254 - n) + 1) (some (2 * (254 - n))) (.leaf (254 - n)) := by
      refine .leaf ?_ ?_ ?_ ?_
      · simp only [chainHuff, if_pos (show (2 * (254 - n) + 1) % 2 = 1 by omega)]
        omega
      · have : internalNode = 257 := rfl
        omega
      · simp only [chainHuff, if_pos (show (2 * (254 - n) + 1) % 2 = 1 by omega),
          Nat.add_sub_cancel]
      · simp only [chainHuff, if_pos (show 254 - n < 255 by omega)]
    have hright := ih (by omega)
    rw [if_neg (by omega), show 2 * (255 - n) - 2 = 2 * (254 - n) by omega,
      show 2 * (255 - n) = 2 * (254 - n) + 2 by omega] at hright
    rw [show 255 - (n + 1) = 254 - n by omega]
    have hnode : chainHuff.nodeList (2 * (254 - n)) = ⟨some (2 * (254 - n) + 1), some (2 * (254 - n) + 2),
        if 2 * (254 - n) = 0 then none else some (2 * (254 - n) - 2), internalNode⟩ := by
      simp only [chainHuff, if_neg (show ¬2 * (254 - n) % 2 = 1 by omega),
        if_neg (show ¬2 * (254 - n) = 510 by omega)]
    refine .node (by rw [hnode]) ?_ (by rw [hnode]) (by rw [hnode]) (by omega) hleft hright
    rw [hnode]
    dsimp only
    split <;> split <;> first | rfl | omega

theorem isPacketTree_chainTree : IsPacketTree chainHuff (chainTree 255) where
  root := ⟨0, rfl, represents_chainTree le_rfl⟩
  nodup := by
    rw [leaves_chainTree le_rfl]
    exact nodup_range'
  le_nyt s hs := by
    rw [leaves_chainTree le_rfl, mem_range'_1] at hs
    have : nyt = 256 := rfl
    omega
  complete b := by
    have := b.isLt
    rw [leaves_chainTree le_rfl, mem_range'_1]
    omega

theorem packetBits_zeros (n : ℕ) :
    (packetBits (chainTree 255) (List.replicate n 0)).length = n := by
  induction n with
  | zero => rfl
  | succ n ih =>
    rw [List.replicate_succ, packetBits, List.flatMap_cons, List.length_append]
    rw [packetBits] at ih
    rw [ih, show byteCode (chainTree 255) 0 = [false] from rfl, length_singleton, Nat.add_comm]

theorem packetBytes_bufferOf (xs : List QByte) (n : ℕ) : packetBytes (bufferOf xs n) 0 = xs :=
  slice_blit_self _ 0 xs

/-- Three zero bytes are restored. -/
theorem transparent_zeros :
    Transparent ⟨chainHuff, chainHuff⟩ (bufferOf (List.replicate 3 0) 1) 0 :=
  (transparent_iff isPacketTree_chainTree isPacketTree_chainTree (by decide) (by decide)
    (by decide)).2 (.inl ⟨by rw [packetBytes_bufferOf, packetBits_zeros]; decide, by decide⟩)

/-- Nineteen zero bytes are not. -/
theorem not_transparent_zeros :
    ¬Transparent ⟨chainHuff, chainHuff⟩ (bufferOf (List.replicate 19 0) 1) 0 := by
  refine not_transparent_of_packed isPacketTree_chainTree isPacketTree_chainTree (by decide)
    (by decide) (by decide) (by decide) ?_ ?_
  · rw [packetBytes_bufferOf, packetBits_zeros]
    decide
  · rintro ⟨cs, -, hlt, hle⟩
    rw [packetBytes_bufferOf, List.length_replicate] at hle
    have hm : maxOverallmsglen = 65536 := rfl
    omega

end FteQuake
