import FteQuake.Common.Sizebuf
import FteQuake.Lib.Tiling
import Mathlib.Data.BitVec

/-!
# Chunked downloads

The block list of a download in `cl_parse.c`: `DL_Completed` marks what has arrived, `CL_ParseChunkedDownload`
writes a chunk to the file, and `DLC_RequestDownloadChunks` asks for the missing blocks. The rate only decides
how many chunks a round may ask for, which is a parameter of the round.

`download_tracks` says that the list tiles the file and that its received blocks are what has been written, in
every run in which no chunk begins inside of a block that is not received.
-/

namespace FteQuake

open Tiling List
open Option (some.inj)

namespace Download

/-- `DLBLOCKSIZE`. -/
def blockSize : ℕ := 1024

/-- The state of a block. -/
inductive BlockState
  | missing
  | pending
  | received
  deriving DecidableEq

/-- `struct dlblock_s`; the list is a list. -/
structure DlBlock where
  start : ℕ
  stop : ℕ
  state : BlockState
  sequence : BitVec 32
  deriving DecidableEq

/-- `end - start` of a block, in `qofs_t`. -/
def DlBlock.length (b : DlBlock) : ℕ := (b.stop + (2 ^ 64 - b.start)) % 2 ^ 64

/-- The fields of `qdownload_t` that a chunked download uses. The file is its bytes by offset, as far
as they have been written. -/
structure QDownload where
  size : ℕ
  dlblocks : List DlBlock
  completedbytes : ℕ
  file : ℕ → Option QByte

/-! ## What has arrived -/

/-- What the arrival of a range does to a block: the block before it, when the block was split, the block
that is looked at further, the blocks behind it, and the bytes that are new. -/
structure Cut where
  before : Option DlBlock
  block : DlBlock
  after : List DlBlock
  completed : ℕ

/-- The cases of `DL_Completed` for one block, none when it is left alone. -/
def cut (start stop : ℕ) (b : DlBlock) : Option Cut :=
  if b.state = .received then some ⟨none, b, [], 0⟩
  -- whole block
  else if start ≤ b.start ∧ b.stop ≤ stop then
    some ⟨none, { b with state := .received }, [], b.length⟩
  -- chop out middle
  else if b.start < start ∧ stop < b.stop then
    let n : DlBlock := ⟨start, stop, .received, 0#32⟩
    let e : DlBlock := ⟨stop, b.stop, b.state, b.sequence⟩
    some ⟨none, { b with stop := start }, [n, e], n.length⟩
  -- complete start
  else if start ≤ b.start ∧ b.start < stop then
    let n : DlBlock := ⟨stop, b.stop, b.state, b.sequence⟩
    let b : DlBlock := { b with stop := stop, state := .received }
    some ⟨none, b, [n], b.length⟩
  -- complete end: the second block gets the range behind the data
  else if b.start < start ∧ start < b.stop then
    let n : DlBlock := ⟨stop, b.stop, .received, 0#32⟩
    some ⟨some { b with stop := stop }, n, [], n.length⟩
  else none

/-- The merge with the next block. -/
def mergeNext (b : DlBlock) : List DlBlock → DlBlock × List DlBlock
  | [] => (b, [])
  | n :: rest => if n.state = .received then ({ b with stop := n.stop }, rest) else (b, n :: rest)

/-- How much is left of the loop: a block that the range may still split counts for more. -/
def work (stop : ℕ) : List DlBlock → ℕ
  | [] => 0
  | b :: rest => 2 * rest.length + 2 + if b.state ≠ .received ∧ b.start < stop then 1 else 0

theorem work_le (stop : ℕ) (blocks : List DlBlock) : work stop blocks ≤ 2 * blocks.length + 1 := by
  cases blocks with
  | nil => exact Nat.zero_le _
  | cons b rest =>
    rw [work, length_cons]
    split_ifs <;> omega

theorem mergeNext_length (b : DlBlock) (rest : List DlBlock) :
    (mergeNext b rest).2.length ≤ rest.length := by
  cases rest with
  | nil => exact Nat.le_refl _
  | cons n rest =>
    rw [mergeNext]
    split_ifs <;> simp

variable {incoming : BitVec 32} {c : Cut} {b : DlBlock} {rest xs ys : List DlBlock}
  {a m start stop z : ℕ}

/-- The loop of `DL_Completed` makes progress. -/
theorem work_cut (hlt : start < stop) (h : cut start stop b = some c) :
    work stop (mergeNext c.block (c.after ++ rest)).2 < work stop (b :: rest) := by
  have hshort : ∀ d : DlBlock, work stop (mergeNext d rest).2 < work stop (b :: rest) := fun d => by
    have h₁ := work_le stop (mergeNext d rest).2
    have h₂ := mergeNext_length d rest
    rw [work.eq_2 stop b rest]
    omega
  rw [cut] at h
  split_ifs at h with hrec hwhole hmiddle hfirst hlast
  · obtain rfl := some.inj h
    exact hshort b
  · obtain rfl := some.inj h
    exact hshort _
  · obtain rfl := some.inj h
    have hb : b.start < stop := hmiddle.1.trans hlt
    simp [mergeNext, work, hrec, hb]
  · obtain rfl := some.inj h
    simp [mergeNext, work, hrec, hfirst.2]
  · obtain rfl := some.inj h
    exact hshort _

/-- The loop of `DL_Completed`, where `prev` is the block before the rest of the list: the list, and the
bytes that are new. -/
def completedLoop (start stop : ℕ) (prev : Option DlBlock) :
    (blocks : List DlBlock) → List DlBlock × ℕ
  | [] => (prev.toList, 0)
  | b :: rest =>
    if _h : start < stop then
      match _hcut : cut start stop b with
      | none =>
        let r := completedLoop start stop (some b) rest
        (prev.toList ++ r.1, r.2)
      | some c =>
        let done := if c.before.isSome then prev.toList else []
        let prev := c.before.or prev
        let next := mergeNext c.block (c.after ++ rest)
        -- merge with the previous block if possible
        let r :=
          if (prev.map DlBlock.state) = some .received then
            completedLoop start stop (prev.map fun p => { p with stop := next.1.stop }) next.2
          else
            let r := completedLoop start stop (some next.1) next.2
            (prev.toList ++ r.1, r.2)
        (done ++ r.1, c.completed + r.2)
    else (prev.toList ++ b :: rest, 0)
  termination_by blocks => work stop blocks
  decreasing_by
    · have h := work_le stop rest
      rw [work.eq_2]
      omega
    · exact work_cut _h _hcut
    · exact work_cut _h _hcut

/-- `DL_Completed`; the sum of the new bytes wraps once. -/
def completed (dl : QDownload) (start stop : ℕ) : QDownload :=
  let r := completedLoop start stop none dl.dlblocks
  { dl with dlblocks := r.1, completedbytes := (dl.completedbytes + r.2) % 2 ^ 64 }

/-- `VFS_SEEK` and `VFS_WRITE`. -/
def vfsWrite (file : ℕ → Option QByte) (offset len : ℕ) (data : ℕ → QByte) : ℕ → Option QByte :=
  fun x => if offset ≤ x ∧ x < offset + len then some (data (x - offset)) else file x

/-- A download, and whether `CL_DownloadFinished` was called for it. -/
structure State where
  dl : QDownload
  finished : Bool

/-- `chunknum*DLBLOCKSIZE`, where `chunknum` was read as an `int`. -/
def chunkStart (chunknum : BitVec 32) : ℕ := (chunknum.signExtend 64).toNat * blockSize % 2 ^ 64

/-- `(chunknum+1)*DLBLOCKSIZE`. -/
def chunkStop (chunknum : BitVec 32) : ℕ :=
  ((chunknum.signExtend 64).toNat + 1) % 2 ^ 64 * blockSize % 2 ^ 64

/-- The early return of `CL_ParseChunkedDownload`. -/
def tooFar (dl : QDownload) (start : ℕ) : Prop := (dl.size + blockSize) % 2 ^ 64 < start

instance (dl : QDownload) (start : ℕ) : Decidable (tooFar dl start) := Nat.decLt _ _

/-- How much of a chunk `CL_ParseChunkedDownload` writes. -/
def writeLength (dl : QDownload) (start : ℕ) : ℕ :=
  let left := (dl.size + (2 ^ 64 - start)) % 2 ^ 64
  if left < blockSize then left else blockSize

/-- `CL_ParseChunkedDownload` for a data chunk. The number `-1` announces a download instead. -/
def parseChunkedDownload (s : State) (chunknum : BitVec 32) (data : ℕ → QByte) : Option State :=
  let start := chunkStart chunknum
  if chunknum = -1#32 then none
  -- the download is gone, or the chunk is of no use
  else if s.finished ∨ tooFar s.dl start then some s
  else
    let file := vfsWrite s.dl.file start (writeLength s.dl start) data
    let dl := completed { s.dl with file := file } start (chunkStop chunknum)
    some ⟨dl, dl.completedbytes = dl.size⟩

/-! ## Requests -/

/-- The sequence of a pending block is too old. -/
def lost (incoming : BitVec 32) (b : DlBlock) : Bool := b.sequence < incoming - 10#32

/-- A lost block takes the missing and lost blocks behind it. -/
def mergeLost (incoming : BitVec 32) (b : DlBlock) : List DlBlock → DlBlock × List DlBlock
  | [] => (b, [])
  | n :: rest =>
    if n.state = .missing ∨ n.state = .pending ∧ lost incoming n then
      mergeLost incoming { b with stop := n.stop } rest
    else (b, n :: rest)

/-- Packet loss reverts blocks to missing. -/
def revert (incoming : BitVec 32) (b : DlBlock) (rest : List DlBlock) : DlBlock × List DlBlock :=
  if b.state = .pending ∧ lost incoming b then mergeLost incoming { b with state := .missing } rest
  else (b, rest)

/-- If the block is bigger than a chunk, it is split. -/
def splitChunk (b : DlBlock) (rest : List DlBlock) : DlBlock × List DlBlock :=
  if blockSize < b.length then
    let stop := (b.start / blockSize + 1) * blockSize % 2 ^ 64
    ({ b with stop := stop }, ⟨stop, b.stop, .missing, 0#32⟩ :: rest)
  else (b, rest)

theorem mergeLost_length (incoming : BitVec 32) (b : DlBlock) (rest : List DlBlock) :
    (mergeLost incoming b rest).2.length ≤ rest.length := by
  induction rest generalizing b with
  | nil => exact Nat.le_refl _
  | cons n rest ih =>
    rw [mergeLost]
    split_ifs
    · exact (ih _).trans (Nat.le_succ _)
    · exact Nat.le_refl _

theorem revert_length (incoming : BitVec 32) (b : DlBlock) (rest : List DlBlock) :
    (revert incoming b rest).2.length ≤ rest.length := by
  rw [revert]
  split_ifs
  · exact mergeLost_length incoming _ rest
  · exact Nat.le_refl _

/-- The outcome of a round of requests: the list, the chunks that were asked for, and whether something
is still pending. -/
structure Requested where
  dlblocks : List DlBlock
  requests : List ℕ
  stillpending : Bool

/-- The loop of `DLC_RequestDownloadChunks`. -/
def requestLoop (incoming outgoing : BitVec 32) (chunksremaining : ℕ) :
    (blocks : List DlBlock) → Requested
  | [] => ⟨[], [], false⟩
  | b :: rest =>
    let next := revert incoming b rest
    if next.1.state = .missing ∧ 0 < chunksremaining then
      let split := splitChunk next.1 next.2
      let block := { split.1 with state := .pending, sequence := outgoing }
      let chunk := next.1.start / blockSize % 2 ^ 32
      if chunksremaining = 1 then ⟨block :: split.2, [chunk], true⟩
      else
        let r := requestLoop incoming outgoing (chunksremaining - 1) split.2
        ⟨block :: r.dlblocks, chunk :: r.requests, true⟩
    else
      let r := requestLoop incoming outgoing chunksremaining next.2
      ⟨next.1 :: r.dlblocks, r.requests, next.1.state = .pending ∨ r.stillpending⟩
  termination_by blocks => (chunksremaining, blocks.length)
  decreasing_by
    · exact .left _ _ (Nat.sub_one_lt_of_lt ‹_ ∧ 0 < chunksremaining›.2)
    · exact .right _ (Nat.lt_succ_of_le (revert_length incoming b rest))

/-- `DLC_RequestDownloadChunks`, when the rate lets it ask for `chunksremaining` chunks; for none it
returns early. -/
def requestDownloadChunks (s : State) (chunksremaining : ℕ) (incoming outgoing : BitVec 32) :
    State :=
  if s.finished ∨ chunksremaining = 0 then s
  else
    let r := requestLoop incoming outgoing chunksremaining s.dl.dlblocks
    ⟨{ s.dl with dlblocks := r.dlblocks }, !r.stillpending⟩

/-- What happens to a download. -/
inductive Op
  | chunk (chunknum : BitVec 32) (data : ℕ → QByte)
  | request (chunksremaining : ℕ) (incoming outgoing : BitVec 32)

/-- One event. -/
def exec (s : State) : Op → Option State
  | .chunk chunknum data => parseChunkedDownload s chunknum data
  | .request chunksremaining incoming outgoing =>
    some (requestDownloadChunks s chunksremaining incoming outgoing)

/-! ## The received bytes -/

/-- The blocks tile an interval. -/
abbrev TilesFile (a : ℕ) (blocks : List DlBlock) (z : ℕ) : Prop :=
  Tiles DlBlock.start DlBlock.stop a blocks z

/-- A byte in a received block. -/
abbrev Received (blocks : List DlBlock) (x : ℕ) : Prop :=
  Marked DlBlock.start DlBlock.stop (fun b => b.state = .received) blocks x

/-- A byte in a block. -/
abbrev Inside (blocks : List DlBlock) (x : ℕ) : Prop :=
  Marked DlBlock.start DlBlock.stop (fun _ => True) blocks x

/-- The length of the received blocks. -/
abbrev receivedBytes (blocks : List DlBlock) : ℕ :=
  total DlBlock.start DlBlock.stop (fun b => b.state = .received) blocks

/-- The condition of an arrival: no block that is not received has the start of the range inside. -/
def Aligned (start : ℕ) (blocks : List DlBlock) : Prop :=
  ∀ b ∈ blocks, b.state ≠ .received → ¬(b.start < start ∧ start < b.stop)

/-- The list `blocks'` says the same as `blocks`. -/
structure Rejoined (a : ℕ) (blocks blocks' : List DlBlock) (z : ℕ) : Prop where
  tiles : TilesFile a blocks' z
  total : receivedBytes blocks' = receivedBytes blocks
  received : ∀ x, Received blocks' x ↔ Received blocks x

theorem DlBlock.length_eq (hlt : b.start < b.stop) (h64 : b.stop < 2 ^ 64) :
    b.length = b.stop - b.start := by
  rw [DlBlock.length]
  omega

/-- Two neighbours that are both received, or both not, are one block. -/
theorem Rejoined.join {n : DlBlock} (hstate : n.state = .received ↔ b.state = .received)
    (h : TilesFile a (xs ++ b :: n :: ys) z) :
    Rejoined a (xs ++ b :: n :: ys) (xs ++ { b with stop := n.stop } :: ys) z := by
  obtain ⟨m, hxs, hb, hlt, hn, hlt', hys⟩ := tiles_append.1 h
  refine ⟨tiles_append.2 ⟨m, hxs, hb, hlt.trans (hn ▸ hlt'), hys⟩, ?_, fun x => ?_⟩
  · simp only [total_append, total_cons, hstate]
    split_ifs <;> omega
  · simp only [marked_append, marked_cons, hstate, ← or_assoc]
    refine or_congr_left ?_
    rw [or_assoc, ← and_or_left]
    refine or_congr_right (and_congr_right fun _ => ?_)
    omega

theorem Rejoined.refl {blocks : List DlBlock} (h : TilesFile a blocks z) :
    Rejoined a blocks blocks z := ⟨h, rfl, fun _ => Iff.rfl⟩

/-- The merge of a received block with the next one. -/
theorem mergeNext_spec (hb : b.state = .received) (h : TilesFile a (b :: rest) z) :
    Rejoined a (b :: rest) ((mergeNext b rest).1 :: (mergeNext b rest).2) z ∧
      (mergeNext b rest).1.state = .received ∧ (mergeNext b rest).2 ⊆ rest := by
  cases rest with
  | nil => exact ⟨.refl h, hb, List.Subset.refl _⟩
  | cons n rest =>
    rw [mergeNext]
    split_ifs with hn
    · have hjoin : Rejoined a ([] ++ b :: n :: rest) ([] ++ { b with stop := n.stop } :: rest) z :=
        .join (by simp [hn, hb]) h
      exact ⟨hjoin, hb, subset_cons_self n rest⟩
    · exact ⟨.refl h, hb, List.Subset.refl _⟩

/-- A block that is left alone has none of the range. -/
theorem disjoint_of_cut (hclear : Aligned start [b])
    (h : cut start stop b = none) {x : ℕ} (hx : b.start ≤ x ∧ x < b.stop) :
    ¬(start ≤ x ∧ x < stop) := by
  rw [cut] at h
  split_ifs at h with hrec hwhole hmiddle hfirst hlast
  have hb := hclear b (mem_singleton_self b) hrec
  omega

/-- **What the arrival of a range does to a block**: it is received as far as it is in the range. -/
theorem cut_spec (hlt : b.start < b.stop) (h64 : b.stop < 2 ^ 64) (hclear : Aligned start [b])
    (hcut : cut start stop b = some c) (hrange : start < stop) :
    c.before = none ∧ TilesFile b.start (c.block :: c.after) b.stop ∧ c.block.state = .received ∧
      Aligned start c.after ∧
      receivedBytes (c.block :: c.after) = receivedBytes [b] + c.completed ∧
      ∀ x, Received (c.block :: c.after) x ↔
        Received [b] x ∨ (start ≤ x ∧ x < stop) ∧ b.start ≤ x ∧ x < b.stop := by
  have hb := hclear b (mem_singleton_self b)
  rw [cut] at hcut
  split_ifs at hcut with hrec hwhole hmiddle hfirst hlast
  · obtain rfl := some.inj hcut
    refine ⟨rfl, ⟨rfl, hlt, rfl⟩, hrec, fun e he => absurd he not_mem_nil, by simp, fun x => ?_⟩
    simp [hrec]
  · obtain rfl := some.inj hcut
    refine ⟨rfl, ⟨rfl, hlt, rfl⟩, rfl, fun e he => absurd he not_mem_nil, ?_, fun x => ?_⟩
    · simp [hrec, DlBlock.length_eq hlt h64]
    · simp only [marked_cons, marked_nil, hrec, true_and, false_and, false_or, or_false]
      omega
  · exact absurd ⟨hmiddle.1, by omega⟩ (hb hrec)
  · obtain rfl := some.inj hcut
    have hstop : stop < b.stop := by omega
    refine ⟨rfl, ⟨rfl, hfirst.2, rfl, hstop, rfl⟩, rfl, ?_, ?_, fun x => ?_⟩
    · intro e he _
      obtain rfl := mem_singleton.1 he
      exact fun h => absurd h.1 (by simpa using hrange.le)
    · have hlen := DlBlock.length_eq (b := { b with stop := stop, state := .received }) hfirst.2
        (hstop.trans h64)
      simp [hrec, hlen]
    · simp only [marked_cons, marked_nil, hrec, true_and, false_and, false_or, or_false]
      omega
  · exact absurd hlast (hb hrec)

theorem Aligned.subset (h : Aligned start ys) (hsub : xs ⊆ ys) :
    Aligned start xs := fun b hb => h b (hsub hb)

theorem Aligned.append (hx : Aligned start xs) (hy : Aligned start ys) : Aligned start (xs ++ ys) := fun b hb =>
  (mem_append.1 hb).elim (hx b) (hy b)

/-- The places inside of the blocks of a tiling. -/
theorem inside_iff {blocks : List DlBlock} (h : TilesFile a blocks z) {x : ℕ} :
    Inside blocks x ↔ a ≤ x ∧ x < z :=
  ⟨h.marked_bounds, h.marked_of_forall fun _ _ => trivial⟩

/-- A block, cut and merged with the next one. -/
theorem cut_mergeNext (hrange : start < stop) (h64 : z < 2 ^ 64) (htiles : TilesFile m (b :: rest) z)
    (hclear : Aligned start (b :: rest)) (hcut : cut start stop b = some c)
    {next : DlBlock × List DlBlock} (hnext : mergeNext c.block (c.after ++ rest) = next) :
    c.before = none ∧ next.1.state = .received ∧ Aligned start next.2 ∧
      TilesFile m (next.1 :: next.2) z ∧
      receivedBytes (next.1 :: next.2) = receivedBytes (b :: rest) + c.completed ∧
      ∀ x, Received (next.1 :: next.2) x ↔
        Received (b :: rest) x ∨ (start ≤ x ∧ x < stop) ∧ b.start ≤ x ∧ x < b.stop := by
  obtain ⟨rfl, hlt, hrest⟩ := htiles
  have hb : Aligned start [b] := hclear.subset (by simp)
  obtain ⟨hbefore, hct, hstate, hafter, htotal, hreceived⟩ :=
    cut_spec hlt (hrest.le.trans_lt h64) hb hcut hrange
  have hlist : TilesFile b.start (c.block :: (c.after ++ rest)) z := by
    rw [← cons_append]
    exact tiles_append.2 ⟨_, hct, hrest⟩
  obtain ⟨hjoin, hreceived', hsub⟩ := mergeNext_spec hstate hlist
  rw [hnext] at hjoin hreceived' hsub
  have haligned : Aligned start (c.after ++ rest) :=
    hafter.append (hclear.subset (subset_cons_self b rest))
  refine ⟨hbefore, hreceived', haligned.subset hsub, hjoin.tiles, ?_, fun x => ?_⟩
  · rw [hjoin.total, ← cons_append, receivedBytes, total_append]
    simp only [receivedBytes, total_cons, total_nil] at htotal ⊢
    omega
  · rw [hjoin.received, ← cons_append, Received, marked_append]
    have hx := hreceived x
    simp only [Received, marked_cons, marked_nil, or_false] at hx ⊢
    rw [hx]
    exact or_right_comm

/-- The list after the loop over `blocks`, which stand behind `prev`, and the bytes that are new. -/
structure Arrived (start stop a : ℕ) (prev : Option DlBlock) (blocks : List DlBlock) (z : ℕ)
    (r : List DlBlock × ℕ) : Prop where
  tiles : TilesFile a r.1 z
  total : receivedBytes r.1 = receivedBytes (prev.toList ++ blocks) + r.2
  received : ∀ x, Received r.1 x ↔
    Received (prev.toList ++ blocks) x ∨ (start ≤ x ∧ x < stop) ∧ Inside blocks x

/-- The part of the range in the first block is received, and the rest is behind it. -/
theorem cover_iff {next : DlBlock × List DlBlock} (hblocks : TilesFile m (b :: rest) z)
    (hnext : TilesFile m (next.1 :: next.2) z) (hstate : next.1.state = .received)
    (hreceived : ∀ x, Received (next.1 :: next.2) x ↔
      Received (b :: rest) x ∨ (start ≤ x ∧ x < stop) ∧ b.start ≤ x ∧ x < b.stop) (x : ℕ) :
    (Received (next.1 :: next.2) x ∨ (start ≤ x ∧ x < stop) ∧ Inside next.2 x) ↔
      (Received (b :: rest) x ∨ (start ≤ x ∧ x < stop) ∧ Inside (b :: rest) x) := by
  obtain ⟨hstart, hlt, hrest⟩ := id hblocks
  obtain ⟨hnstart, hnlt, hnrest⟩ := id hnext
  have hle := hrest.le
  rw [inside_iff hblocks, inside_iff hnrest, hreceived]
  constructor
  · rintro ((h | ⟨hr, hx⟩) | ⟨hr, hx⟩)
    · exact .inl h
    · exact .inr ⟨hr, by omega⟩
    · exact .inr ⟨hr, by omega⟩
  · rintro (h | ⟨hr, hx⟩)
    · exact .inl (.inl h)
    by_cases hin : x < next.1.stop
    · exact .inl ((hreceived x).1 (marked_cons.2 (.inl ⟨hstate, by omega, hin⟩)))
    · exact .inr ⟨hr, not_lt.1 hin, hx.2⟩

theorem completedLoop_spec (hrange : start < stop) (h64 : z < 2 ^ 64) (prev : Option DlBlock) (blocks : List DlBlock)
    (htiles : TilesFile a (prev.toList ++ blocks) z) (hclear : Aligned start blocks) :
    Arrived start stop a prev blocks z (completedLoop start stop prev blocks) := by
  induction prev, blocks using completedLoop.induct start stop generalizing a with
  | case1 prev =>
    rw [completedLoop]
    exact ⟨by simpa using htiles, by simp, by simp⟩
  | case2 prev b rest _ hcut ih =>
    rw [completedLoop, dif_pos hrange]
    split
    · obtain ⟨m, hprev, hblocks⟩ := tiles_append.1 htiles
      have harr := ih hblocks (hclear.subset (subset_cons_self b rest))
      refine ⟨tiles_append.2 ⟨m, hprev, harr.tiles⟩, ?_, fun x => ?_⟩
      · have htotal := harr.total
        simp only [receivedBytes, total_append, Option.toList_some, singleton_append] at htotal ⊢
        rw [htotal, Nat.add_assoc]
      · have hdisj := disjoint_of_cut (hclear.subset (by simp)) hcut (x := x)
        rw [Received, marked_append, Received, marked_append, or_assoc]
        refine or_congr_right ((harr.received x).trans (or_congr_right ?_))
        rw [and_congr_right_iff]
        intro hx
        refine Iff.trans ?_ marked_cons.symm
        exact ⟨.inr, fun h => h.resolve_left fun hb => hdisj hb.2 hx⟩
    · rename_i c hcut'
      rw [hcut] at hcut'
      cases hcut'
  | case3 prev b rest _ c hcut prev' next ih2 =>
    rename_i ih1
    obtain ⟨m, hprev, hblocks⟩ := tiles_append.1 htiles
    obtain ⟨hbefore, hstate, haligned, hnt, htotal, hreceived⟩ :=
      cut_mergeNext hrange h64 hblocks hclear hcut (rfl : _ = next)
    have hcover := cover_iff hblocks hnt hstate hreceived
    have hprev' : prev' = prev := by simp only [prev', hbefore, Option.none_or]
    rw [completedLoop, dif_pos hrange]
    split
    · rename_i hcut'
      rw [hcut] at hcut'
      cases hcut'
    rename_i c' hcut'
    obtain rfl : c = c' := some.inj (hcut.symm.trans hcut')
    simp only [hbefore, Option.isSome_none, Bool.false_eq_true, if_false, nil_append, Option.none_or]
    rw [hprev'] at ih2
    rw [show mergeNext c.block (c.after ++ rest) = next from rfl]
    split_ifs with hmerge
    · obtain ⟨p, rfl, hp⟩ := Option.map_eq_some_iff.1 hmerge
      have hjoin : Rejoined a ([] ++ p :: next.1 :: next.2) ([] ++ { p with stop := next.1.stop } :: next.2) z := by
        refine .join (by simp [hstate, hp]) ?_
        exact tiles_append.2 ⟨a, rfl, tiles_append.2 ⟨m, hprev, hnt⟩⟩
      have harr := ih2 hjoin.tiles haligned
      refine ⟨harr.tiles, ?_, fun x => ?_⟩
      · have htotal' := harr.total
        have hmerged := hjoin.total
        simp only [receivedBytes, Option.map_some, Option.toList_some, singleton_append,
          nil_append, total_cons] at htotal hmerged htotal' ⊢
        omega
      · have hmerged := hjoin.received x
        have hx := harr.received x
        simp only [nil_append, Option.map_some, Option.toList_some, singleton_append] at hmerged hx ⊢
        rw [hx, hmerged, ← singleton_append, Received, marked_append, or_assoc, hcover x,
          ← or_assoc, ← marked_append, singleton_append]
    · have harr := ih1 hnt haligned
      refine ⟨tiles_append.2 ⟨m, hprev, harr.tiles⟩, ?_, fun x => ?_⟩
      · have htotal' := harr.total
        simp only [receivedBytes, total_append, Option.toList_some, singleton_append] at htotal htotal' ⊢
        rw [htotal', htotal]
        omega
      · rw [Received, marked_append, Received, marked_append, or_assoc]
        exact or_congr_right ((harr.received x).trans (hcover x))
  | case4 prev b rest hno => exact absurd hrange hno

/-! ## Requests keep what is received -/

theorem Rejoined.trans {zs : List DlBlock} (h : Rejoined a xs ys z) (h' : Rejoined a ys zs z) : Rejoined a xs zs z :=
  ⟨h'.tiles, h'.total.trans h.total, fun x => (h'.received x).trans (h.received x)⟩

theorem Rejoined.cons (hb : b.start = a ∧ a < b.stop ∧ b.stop = m) (h : Rejoined m xs ys z) :
    Rejoined a (b :: xs) (b :: ys) z := by
  obtain ⟨hstart, hlt, rfl⟩ := hb
  refine ⟨⟨hstart, hlt, h.tiles⟩, ?_, fun x => ?_⟩
  · rw [receivedBytes, receivedBytes, total_cons, total_cons]
    exact congrArg _ h.total
  · rw [Received, Received, marked_cons, marked_cons]
    exact or_congr_right (h.received x)

/-- A block changes its state, but not to received or from received. -/
theorem Rejoined.relabel {b' : DlBlock} (h : TilesFile a (b :: rest) z) (hstart : b'.start = b.start)
    (hstop : b'.stop = b.stop) (hstate : b'.state = .received ↔ b.state = .received) :
    Rejoined a (b :: rest) (b' :: rest) z := by
  obtain ⟨hb, hlt, hrest⟩ := h
  refine ⟨⟨hstart.trans hb, hstop ▸ hlt, hstop ▸ hrest⟩, ?_, fun x => ?_⟩
  · simp only [receivedBytes, total_cons, hstate, hstart, hstop]
  · simp only [Received, marked_cons, hstate, hstart, hstop]

theorem mergeLost_spec (hb : b.state = .missing) (h : TilesFile a (b :: rest) z) :
    Rejoined a (b :: rest) ((mergeLost incoming b rest).1 :: (mergeLost incoming b rest).2) z ∧
      (mergeLost incoming b rest).1.state = .missing := by
  induction rest generalizing b with
  | nil => exact ⟨.refl h, hb⟩
  | cons n rest ih =>
    rw [mergeLost]
    split_ifs with hn
    · have hjoin : Rejoined a ([] ++ b :: n :: rest) ([] ++ { b with stop := n.stop } :: rest) z := by
        refine .join ?_ h
        rcases hn with hn | ⟨hn, -⟩ <;> simp [hn, hb]
      obtain ⟨hmerged, hstate⟩ := ih (b := { b with stop := n.stop }) hb hjoin.tiles
      exact ⟨hjoin.trans hmerged, hstate⟩
    · exact ⟨.refl h, hb⟩

theorem revert_spec (incoming : BitVec 32) (h : TilesFile a (b :: rest) z) :
    Rejoined a (b :: rest) ((revert incoming b rest).1 :: (revert incoming b rest).2) z := by
  rw [revert]
  split_ifs with hlost
  · have hrelabel : Rejoined a (b :: rest) ({ b with state := .missing } :: rest) z :=
      .relabel h rfl rfl (by simp [hlost.1])
    exact hrelabel.trans (mergeLost_spec rfl hrelabel.tiles).1
  · exact .refl h

theorem splitChunk_spec (hb : b.state ≠ .received) (h64 : z < 2 ^ 64) (h : TilesFile a (b :: rest) z) :
    Rejoined a (b :: rest) ((splitChunk b rest).1 :: (splitChunk b rest).2) z ∧
      (splitChunk b rest).1.state = b.state := by
  obtain ⟨hstart, hlt, hrest⟩ := id h
  rw [splitChunk]
  split_ifs with hbig
  · rw [DlBlock.length_eq (hstart ▸ hlt) (hrest.le.trans_lt h64), blockSize] at hbig
    have hle := hrest.le
    set stop := (b.start / blockSize + 1) * blockSize % 2 ^ 64 with hstop
    have hbetween : b.start < stop ∧ stop < b.stop := by
      rw [hstop, blockSize]
      omega
    have htiles : TilesFile a ({ b with stop := stop } :: ⟨stop, b.stop, .missing, 0#32⟩ :: rest) z :=
      ⟨hstart, hstart ▸ hbetween.1, rfl, hbetween.2, hrest⟩
    have hjoin : Rejoined a ([] ++ { b with stop := stop } :: ⟨stop, b.stop, .missing, 0#32⟩ :: rest)
        ([] ++ b :: rest) z := .join (by simp [hb]) htiles
    exact ⟨⟨htiles, hjoin.total.symm, fun x => (hjoin.received x).symm⟩, rfl⟩
  · exact ⟨.refl h, rfl⟩

/-- A missing block that is asked for, after the loss and the split. -/
theorem requestBlock_spec (outgoing : BitVec 32) (h64 : z < 2 ^ 64) (h : TilesFile a (b :: rest) z)
    (hmissing : (revert incoming b rest).1.state = .missing) :
    Rejoined a (b :: rest)
      ({ (splitChunk (revert incoming b rest).1 (revert incoming b rest).2).1 with
          state := .pending, sequence := outgoing } ::
        (splitChunk (revert incoming b rest).1 (revert incoming b rest).2).2) z := by
  have hrev := revert_spec incoming h
  obtain ⟨hsplit, hstate⟩ := splitChunk_spec (by simp [hmissing]) h64 hrev.tiles
  refine hrev.trans (hsplit.trans (.relabel hsplit.tiles rfl rfl ?_))
  simp [hstate, hmissing]

/-- **A round of requests keeps what is received**, and something is pending after it unless the whole
file is received. -/
theorem requestLoop_spec (incoming outgoing : BitVec 32) (h64 : z < 2 ^ 64)
    (chunksremaining : ℕ) (blocks : List DlBlock) (h : TilesFile a blocks z) :
    Rejoined a blocks (requestLoop incoming outgoing chunksremaining blocks).dlblocks z ∧
      (0 < chunksremaining → (requestLoop incoming outgoing chunksremaining blocks).stillpending = false →
        ∀ b ∈ (requestLoop incoming outgoing chunksremaining blocks).dlblocks, b.state = .received) := by
  induction chunksremaining, blocks using requestLoop.induct incoming outgoing generalizing a with
  | case1 k =>
    rw [requestLoop]
    exact ⟨.refl h, fun _ _ b hb => absurd hb not_mem_nil⟩
  | case2 b rest next =>
    rename_i hmissing
    have hreq := requestBlock_spec outgoing h64 h hmissing.1
    rw [requestLoop, if_pos hmissing, if_pos rfl]
    exact ⟨hreq, fun _ hpending => Bool.noConfusion hpending⟩
  | case3 k b rest next hmissing split hk =>
    rename_i ih
    have hreq := requestBlock_spec outgoing h64 h hmissing.1
    rw [requestLoop, if_pos hmissing, if_neg hk]
    refine ⟨hreq.trans (.cons ⟨hreq.tiles.1, hreq.tiles.2.1, rfl⟩ (ih hreq.tiles.2.2).1), ?_⟩
    exact fun _ hpending => Bool.noConfusion hpending
  | case4 k b rest next hno =>
    rename_i ih
    have hrev := revert_spec incoming h
    obtain ⟨hrest, hall⟩ := ih hrev.tiles.2.2
    rw [requestLoop, if_neg hno]
    refine ⟨hrev.trans (.cons ⟨hrev.tiles.1, hrev.tiles.2.1, rfl⟩ hrest), fun hk hpending => ?_⟩
    rw [decide_eq_false_iff_not, not_or, Bool.not_eq_true] at hpending
    intro c hc
    rcases mem_cons.1 hc with rfl | hc
    · cases hstate : next.1.state with
      | missing => exact absurd ⟨hstate, hk⟩ hno
      | pending => exact absurd hstate hpending.1
      | received => rfl
    · exact hall hk hpending.2 c hc

/-! ## Runs -/

/-- The file after an event: a chunk stands at its own offset, as far as it is in the file. -/
def fileAfter (s : State) (file : ℕ → Option QByte) : Op → ℕ → Option QByte
  | .chunk chunknum data =>
    if s.finished ∨ tooFar s.dl (chunkStart chunknum) then file
    else fun x =>
      if chunkStart chunknum ≤ x ∧ x < chunkStart chunknum + blockSize ∧ x < s.dl.size then
        some (data (x - chunkStart chunknum))
      else file x
  | .request _ _ _ => file

/-- The list tiles the file, its received blocks are what has been written, `completedbytes` is their
length, and a download is finished only when everything is received. -/
structure Tracks (s : State) (file : ℕ → Option QByte) : Prop where
  size : s.dl.size < 2 ^ 64
  tiles : TilesFile 0 s.dl.dlblocks s.dl.size
  written : s.dl.file = file
  received : ∀ x, Received s.dl.dlblocks x ↔ (file x).isSome
  completed : s.dl.completedbytes = receivedBytes s.dl.dlblocks
  finished : s.finished → ∀ x < s.dl.size, Received s.dl.dlblocks x

/-- The condition of an event: a chunk that is looked at does not begin behind the file, nor inside of
a block that is not received. -/
def Harmless (s : State) : Op → Prop
  | .chunk chunknum _ => ¬s.finished → ¬tooFar s.dl (chunkStart chunknum) →
    chunkStart chunknum ≤ s.dl.size ∧ Aligned (chunkStart chunknum) s.dl.dlblocks
  | .request _ _ _ => True

/-- The runs from `s₀`: the state that is reached, and what has been written to the file. -/
inductive Run (C : State → Op → Prop) (s₀ : State) : State → (ℕ → Option QByte) → Prop
  | start : Run C s₀ s₀ s₀.dl.file
  | step {s s' : State} {file : ℕ → Option QByte} {op : Op} (hrun : Run C s₀ s file) (hop : C s op)
      (hexec : exec s op = some s') : Run C s₀ s' (fileAfter s file op)

theorem chunkStop_eq {chunknum : BitVec 32} (h : chunknum ≠ -1#32) :
    chunkStop chunknum = chunkStart chunknum + blockSize := by
  have hne : chunknum.toNat ≠ 2 ^ 32 - 1 := fun he => h (BitVec.eq_of_toNat_eq he)
  have hlt := chunknum.isLt
  rw [chunkStop, chunkStart, BitVec.toNat_signExtend, BitVec.msb_eq_decide, blockSize]
  simp only [decide_eq_true_eq, BitVec.toNat_setWidth]
  split_ifs <;> omega

variable {s s' : State} {file : ℕ → Option QByte}

/-- What is written of a chunk that begins in the file. -/
theorem vfsWrite_eq (dl : QDownload) (hsize : dl.size < 2 ^ 64) (hstart : start ≤ dl.size)
    (data : ℕ → QByte) (x : ℕ) : vfsWrite dl.file start (writeLength dl start) data x =
      if start ≤ x ∧ x < start + blockSize ∧ x < dl.size then some (data (x - start))
      else dl.file x := by
  have hlen : writeLength dl start = min blockSize (dl.size - start) := by
    have hleft : (dl.size + (2 ^ 64 - start)) % 2 ^ 64 = dl.size - start := by omega
    simp only [writeLength, hleft]
    split_ifs <;> omega
  rw [vfsWrite, hlen]
  refine if_congr ?_ rfl rfl
  omega

/-- An arrival keeps the list in step with the file. -/
theorem Tracks.chunk (h : Tracks s file) {chunknum : BitVec 32} {data : ℕ → QByte}
    (hop : Harmless s (.chunk chunknum data)) (hexec : exec s (.chunk chunknum data) = some s') :
    Tracks s' (fileAfter s file (.chunk chunknum data)) ∧ s'.dl.size = s.dl.size := by
  rw [exec, parseChunkedDownload] at hexec
  simp only at hexec
  split_ifs at hexec with hannounce hskip
  · obtain rfl := some.inj hexec
    rw [fileAfter, if_pos hskip]
    exact ⟨h, rfl⟩
  · obtain ⟨hactive, hnear⟩ := not_or.1 hskip
    obtain ⟨hstart, haligned⟩ := hop hactive hnear
    obtain rfl := some.inj hexec
    have hfile : fileAfter s file (.chunk chunknum data) =
        vfsWrite s.dl.file (chunkStart chunknum) (writeLength s.dl (chunkStart chunknum)) data := by
      funext x
      rw [vfsWrite_eq s.dl h.size hstart, fileAfter, if_neg hskip, h.written]
    have hrange : chunkStart chunknum < chunkStop chunknum := by
      rw [chunkStop_eq hannounce, blockSize]
      omega
    have harr := completedLoop_spec hrange h.size none s.dl.dlblocks h.tiles haligned
    have htotal : (s.dl.completedbytes +
        (completedLoop (chunkStart chunknum) (chunkStop chunknum) none s.dl.dlblocks).2) % 2 ^ 64 =
        receivedBytes (completedLoop (chunkStart chunknum) (chunkStop chunknum) none s.dl.dlblocks).1 := by
      have hle := harr.tiles.total_le (p := fun b => b.state = .received)
      have hsize := h.size
      have hsum := harr.total
      rw [h.completed]
      simp only [receivedBytes, Option.toList_none, nil_append] at hsum ⊢
      omega
    refine ⟨⟨h.size, harr.tiles, hfile.symm, fun x => ?_, htotal, fun hfin x hx => ?_⟩, rfl⟩
    · rw [hfile, vfsWrite_eq s.dl h.size hstart]
      refine (harr.received x).trans ?_
      rw [inside_iff h.tiles, Option.toList_none, nil_append, h.received, ← h.written, chunkStop_eq hannounce]
      split_ifs with hin
      · simp only [Option.isSome_some, iff_true]
        exact .inr ⟨⟨hin.1, hin.2.1⟩, Nat.zero_le x, hin.2.2⟩
      · exact or_iff_left fun hx => hin ⟨hx.1.1, hx.1.2, hx.2.2⟩
    · refine harr.tiles.marked_of_total_eq ?_ ⟨Nat.zero_le x, hx⟩
      exact htotal.symm.trans (of_decide_eq_true hfin)

/-- A round of requests keeps the list in step with the file. -/
theorem Tracks.request (h : Tracks s file) {chunksremaining : ℕ} {outgoing : BitVec 32} :
    Tracks (requestDownloadChunks s chunksremaining incoming outgoing) file ∧
      (requestDownloadChunks s chunksremaining incoming outgoing).dl.size = s.dl.size := by
  rw [requestDownloadChunks]
  split_ifs with hskip
  · exact ⟨h, rfl⟩
  obtain ⟨hrejoined, hall⟩ := requestLoop_spec incoming outgoing h.size chunksremaining s.dl.dlblocks h.tiles
  refine ⟨⟨h.size, hrejoined.tiles, h.written, fun x => (hrejoined.received x).trans (h.received x),
    h.completed.trans hrejoined.total.symm, fun hfin x hx => ?_⟩, rfl⟩
  have hpending : (requestLoop incoming outgoing chunksremaining s.dl.dlblocks).stillpending = false := by
    simpa using hfin
  exact hrejoined.tiles.marked_of_forall (hall (Nat.pos_of_ne_zero (not_or.1 hskip).2) hpending) ⟨Nat.zero_le x, hx⟩

/-- The step lemma. -/
theorem Tracks.exec (h : Tracks s file) {op : Op} (hop : Harmless s op) (hexec : exec s op = some s') :
    Tracks s' (fileAfter s file op) ∧ s'.dl.size = s.dl.size := by
  cases op with
  | chunk chunknum data => exact h.chunk hop hexec
  | request chunksremaining incoming outgoing =>
    obtain rfl := some.inj hexec
    exact h.request

/-- **Chunked downloads track exactly what was received**, in every run in which no chunk begins behind
the file or inside of a block that is not received. -/
theorem download_tracks {s₀ : State} (h₀ : Tracks s₀ s₀.dl.file) (h : Run Harmless s₀ s file) :
    Tracks s file ∧ s.dl.size = s₀.dl.size ∧ ∀ x, (s.dl.file x).isSome → x < s.dl.size := by
  have htracks : Tracks s file ∧ s.dl.size = s₀.dl.size := by
    induction h with
    | start => exact ⟨h₀, rfl⟩
    | step hrun hop hexec ih =>
      obtain ⟨hstep, hsize⟩ := ih.1.exec hop hexec
      exact ⟨hstep, hsize.trans ih.2⟩
  obtain ⟨htracks, hsize⟩ := htracks
  refine ⟨htracks, hsize, fun x hx => ?_⟩
  rw [htracks.written, ← htracks.received] at hx
  exact (htracks.tiles.marked_bounds hx).2

/-- A download of `size` bytes that has just begun. -/
def begun (size : ℕ) : State := ⟨⟨size, [⟨0, size, .missing, 0#32⟩], 0, fun _ => none⟩, false⟩

theorem begun_tracks {size : ℕ} (hpos : 0 < size) (h64 : size < 2 ^ 64) :
    Tracks (begun size) (begun size).dl.file := by
  refine ⟨h64, ⟨rfl, hpos, rfl⟩, rfl, fun x => ?_, rfl, fun h => Bool.noConfusion h⟩
  simp [begun]

theorem download_tracks_single :
    ∃ s, exec (begun 1500) (.chunk 0#32 fun _ => 7) = some s ∧
      Tracks s (fileAfter (begun 1500) (begun 1500).dl.file (.chunk 0#32 fun _ => 7)) := by
  have hop : Harmless (begun 1500) (.chunk 0#32 fun _ => 7) := fun _ _ =>
    ⟨by decide, fun b hb _ h => by
      obtain rfl := List.mem_singleton.1 hb
      exact absurd h.1 (by decide)⟩
  have hexec : ∃ s, exec (begun 1500) (.chunk 0#32 fun _ => 7) = some s := ⟨_, rfl⟩
  obtain ⟨s, hexec⟩ := hexec
  exact ⟨s, hexec, (download_tracks (begun_tracks (by decide) (by decide))
    (.step .start hop hexec)).1⟩

/-- A chunk in the middle of a missing block is written and counted, but the block stays missing. -/
theorem download_loses_chunk :
    ∃ s file, Run (fun _ _ => True) (begun 3072) s file ∧ (file 1024).isSome ∧
      ¬ Received s.dl.dlblocks 1024 ∧ s.dl.completedbytes = 1024 := by
  have hexec : exec (begun 3072) (.chunk 1#32 fun _ => 7) = some
      ⟨⟨3072, [⟨0, 2048, .missing, 0#32⟩, ⟨2048, 3072, .missing, 0#32⟩], 1024,
        vfsWrite (fun _ => none) 1024 1024 fun _ => 7⟩, false⟩ := by
    have hstart : chunkStart 1#32 = 1024 := by decide
    have hstop : chunkStop 1#32 = 2048 := by decide
    simp [exec, parseChunkedDownload, hstart, hstop, begun, tooFar, blockSize, writeLength, completed,
      completedLoop, cut, mergeNext, DlBlock.length]
  refine ⟨_, _, .step .start trivial hexec, ?_, ?_, rfl⟩
  · simp [fileAfter, begun, tooFar, show chunkStart 1#32 = 1024 by decide, blockSize]
  · simp [Received]

end Download

end FteQuake
