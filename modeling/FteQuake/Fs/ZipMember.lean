import FteQuake.Fs.GzDec
import FteQuake.Fs.ZipDirectory

/-!
# The members of a zip file

`FSZIP_ValidateLocalHeader`, `FSZIP_OpenVFS` and what an opened member does: `VFSZIP_ReadBytes`,
`VFSZIP_Seek` and `VFSZIP_Tell`, with the decompression under them. `inflate` is a decoder, and
everything that is asked of it is `StreamDecoder.Correct` and `StreamDecoder.Drains`. All members of an
archive read from the one file of it.

`Plain` is what a member should be, a list of bytes with a position. `members_plain` says of which
members it is so: the compressed size is taken from the local header, where it may be zero.
-/

namespace FteQuake

open ByteReader StreamDecoder List Option
open ZipDirectory (readLE_field zflCorrupt zflDeflated)

namespace ZipMember

open ZipDirectory (ZPackFile Extra fieldValue fieldBytes)

open GzDec (Returns)

/-! ## Files -/

/-- A file that can be read from and written to at a position. -/
structure VfsFile where
  data : List QByte
  pos : ℕ

/-- `VFS_SEEK`. -/
def VfsFile.seek (f : VfsFile) (pos : ℕ) : VfsFile := { f with pos := pos }

/-- `VFS_READ`. -/
def VfsFile.read (f : VfsFile) (n : ℕ) : List QByte × VfsFile :=
  let bytes := (f.data.drop f.pos).take n
  (bytes, { f with pos := f.pos + bytes.length })

/-- `VFS_WRITE`. -/
def VfsFile.write (f : VfsFile) (bytes : List QByte) : VfsFile :=
  ⟨f.data.take f.pos ++ bytes ++ f.data.drop (f.pos + bytes.length), f.pos + bytes.length⟩

/-! ## Traditional encryption -/

/-- `cryptkey`. -/
structure Keys where
  key0 : BitVec 32
  key1 : BitVec 32
  key2 : BitVec 32

section Crypt

variable (crctable : QByte → BitVec 32)

/-- `CRC32`. -/
def crc32 (c : BitVec 32) (b : QByte) : BitVec 32 := crctable (c.setWidth 8 ^^^ b) ^^^ (c >>> 8)

/-- `FSZIP_UpdateKeys`. -/
def updateKeys (k : Keys) (ch : QByte) : Keys :=
  let key0 := crc32 crctable k.key0 ch
  let key1 := (k.key1 + (key0 &&& 0xff)) * 0x8088405 + 1
  ⟨key0, key1, crc32 crctable k.key2 ((key1 >>> 24).setWidth 8)⟩

/-- `FSZIP_DecryptByte`. -/
def decryptByte (k : Keys) : QByte :=
  let temp := (k.key2 &&& 0xffff) ||| 2
  ((temp * (temp ^^^ 1)) >>> 8).setWidth 8

/-- `FSZIP_DecryptBlock`. -/
def decryptBlock : Keys → List QByte → List QByte × Keys
  | k, [] => ([], k)
  | k, c :: block =>
    let temp := c ^^^ decryptByte k
    let r := decryptBlock (updateKeys crctable k temp) block
    (temp :: r.1, r.2)

/-- The keys of a password. -/
def passwordKeys (password : List QByte) : Keys :=
  password.foldl (updateKeys crctable) ⟨0x12345678, 0x23456789, 0x34567890⟩

/-- `FSZIP_SetupCrytoKeys`: the keys behind the header, when its last byte is right. That byte is a
`char`, which has a sign. -/
def setupCrytoKeys (password cryptheader : List QByte) (crc : ℕ) : Option (Option Keys) :=
  let r := decryptBlock crctable (passwordKeys crctable password) cryptheader
  match r.1[11]? with
  | none => none
  | some b => some (if b.toInt ≠ ((crc / 2 ^ 24 : ℕ) : ℤ) then none else some r.2)

end Crypt

/-! ## Decompression -/

/-- `sizeof(inbuffer)` and `sizeof(outbuffer)`. -/
def bufSize : ℕ := 16384

/-- `struct decompressstate`. `nextIn` is what `strm.next_in` has left, and `out` are the
`strm.total_out` bytes of `outbuffer`. -/
structure DecompressState (σ : Type) where
  cstart : ℕ
  cofs : ℕ
  cend : ℕ
  usize : ℕ
  nextIn : List QByte
  out : List QByte
  readoffset : ℕ
  encrypted : Bool
  cryptkey : Keys
  initialkey : Keys
  strm : σ

variable {σ : Type} (crctable : QByte → BitVec 32) (D : Decoder σ QByte)

/-- `FSZIP_Deflate_Init`, on data that is not encrypted. -/
def plainState (start csize usize : ℕ) : DecompressState σ :=
  ⟨start, start, start + csize, usize, [], [], 0, false, ⟨0, 0, 0⟩, ⟨0, 0, 0⟩, D.init⟩

/-- `FSZIP_Deflate_Init`. -/
def deflateInit (raw : VfsFile) (start csize usize : ℕ) (password : Option (List QByte)) (crc : ℕ) :
    Option (Option (DecompressState σ)) :=
  match password with
  | none => some (some (plainState D start csize usize))
  | some password =>
    if csize < 12 then some (some (plainState D start csize usize))
    else
      let entropy := ((raw.seek start).read 12).1
      (setupCrytoKeys crctable password entropy crc).map fun keys =>
        keys.map fun keys =>
          { plainState D (start + 12) (csize - 12) usize with
            encrypted := true
            cryptkey := keys
            initialkey := keys }

/-- `FSZIP_Decompress_Rewind`. -/
def decompressRewind (st : DecompressState σ) : DecompressState σ :=
  { plainState D st.cstart (st.cend - st.cstart) st.usize with
    encrypted := st.encrypted
    cryptkey := st.initialkey
    initialkey := st.initialkey }

/-- `FSZIP_Deflate_Seek`. -/
def deflateSeek (st : DecompressState σ) (offset newoffset : ℕ) : Option (DecompressState σ × ℕ) :=
  if newoffset ≤ offset then
    let dist := offset - newoffset
    if dist ≤ st.readoffset then
      some ({ st with readoffset := st.readoffset - dist }, offset - dist)
    else none
  else
    let dist := newoffset - offset
    if st.readoffset + dist ≤ st.out.length then
      some ({ st with readoffset := st.readoffset + dist }, offset + dist)
    else none

/-- The part of `FSZIP_Deflate_Read` that feeds `inflate`, when it has no input. -/
def feed (raw : VfsFile) (st : DecompressState σ) : VfsFile × DecompressState σ :=
  if st.nextIn ≠ [] then (raw, st)
  else
    let sz := min (st.cend - st.cofs) bufSize
    if sz = 0 then (raw, st)
    else
      let (bytes, raw) := (raw.seek st.cofs).read sz
      let st := { st with nextIn := bytes, cofs := st.cofs + bytes.length }
      if st.encrypted then
        let (plain, keys) := decryptBlock crctable st.cryptkey st.nextIn
        (raw, { st with nextIn := plain, cryptkey := keys })
      else (raw, st)

/-- `qinflate` into an empty `outbuffer`. -/
def inflate (st : DecompressState σ) : Ret × DecompressState σ :=
  let r := D.run st.strm false st.nextIn bufSize
  (r.ret, { st with strm := r.next, nextIn := st.nextIn.drop r.used, out := r.out })

/-- The loop of `FSZIP_Deflate_Read`, at most so many times around. -/
def deflateReadLoop : ℕ → Bool → VfsFile → DecompressState σ → ℕ →
    Option (List QByte × VfsFile × DecompressState σ)
  | 0, _, _, _, _ => none
  | fuel + 1, eof, raw, st, bytes =>
    if bytes = 0 then some ([], raw, st)
    else if st.readoffset < st.out.length then
      let consume := min (st.out.length - st.readoffset) bytes
      (deflateReadLoop fuel eof raw { st with readoffset := st.readoffset + consume }
        (bytes - consume)).map fun r => ((st.out.drop st.readoffset).take consume ++ r.1, r.2)
    else if eof then some ([], raw, st)
    else
      let (raw, st) := feed crctable raw { st with out := [], readoffset := 0 }
      let eof := decide (st.nextIn = [])
      match inflate D st with
      | (.ok, st) => deflateReadLoop fuel eof raw st bytes
      | (.streamEnd, st) => deflateReadLoop fuel true raw st bytes
      | (.error, st) => some ([], raw, st)

/-- `FSZIP_Deflate_Read`. -/
def deflateRead (fuel : ℕ) (raw : VfsFile) (st : DecompressState σ) (bytes : ℕ) :
    Option (List QByte × VfsFile × DecompressState σ) :=
  deflateReadLoop crctable D fuel false raw st bytes

/-- The loop of `FSZIP_Decompress_ToTempFile`. As many bytes of the buffer are written as were asked
for. -/
def toTempLoop : ℕ → VfsFile → DecompressState σ → Mem QByte → VfsFile → ℕ →
    Option (VfsFile × VfsFile)
  | 0, _, _, _, _, _ => none
  | fuel + 1, raw, st, buffer, defer, upos =>
    if upos < st.usize then do
      let chunk := min (st.usize - upos) bufSize
      let (bytes, raw, st) ← deflateRead crctable D fuel raw st chunk
      if bytes = [] then some (defer, raw)
      else
        let buffer := buffer.blit 0 bytes
        toTempLoop fuel raw st buffer (defer.write (buffer.slice 0 chunk)) (upos + chunk)
    else some (defer, raw)

/-- `FSZIP_Decompress_ToTempFile`, with whatever is in its buffer at first. -/
def toTempFile (fuel : ℕ) (raw : VfsFile) (st : DecompressState σ) (buffer : Mem QByte) :
    Option (VfsFile × VfsFile) :=
  toTempLoop crctable D fuel raw (decompressRewind D st) buffer ⟨[], 0⟩ 0

/-! ## Opened members -/

/-- `vfszip_t`. -/
structure VfsZip (σ : Type) where
  defer : Option VfsFile
  decompress : Option (DecompressState σ)
  pos : ℕ
  length : ℕ
  startpos : ℕ

/-- `VFSZIP_ReadBytes`. -/
def readBytes (fuel : ℕ) (raw : VfsFile) (f : VfsZip σ) (n : ℕ) :
    Option (List QByte × VfsFile × VfsZip σ) :=
  match f.defer with
  | some defer =>
    let (bytes, defer) := defer.read n
    some (bytes, raw, { f with defer := some defer })
  | none =>
    match f.decompress with
    | some st => do
      let (bytes, raw, st) ← deflateRead crctable D fuel raw st n
      some (bytes, raw, { f with decompress := some st, pos := f.pos + bytes.length })
    | none =>
      let n := if f.length < f.pos + n then f.length - f.pos else n
      let (bytes, raw) := (raw.seek (f.pos + f.startpos)).read n
      some (bytes, raw, { f with pos := f.pos + bytes.length })

/-- The end of `VFSZIP_Seek`. -/
def seekWithin (f : VfsZip σ) (pos : ℕ) : Bool × VfsZip σ :=
  if f.length < pos then (false, f) else (true, { f with pos := pos })

/-- `VFSZIP_Seek`; `temp` says whether `FS_OpenTemp` gives a file. -/
def seek (fuel : ℕ) (temp : Bool) (buffer : Mem QByte) (raw : VfsFile) (f : VfsZip σ) (pos : ℕ) :
    Option (Bool × VfsFile × VfsZip σ) :=
  match f.defer with
  | some defer => some (true, raw, { f with defer := some (defer.seek pos) })
  | none =>
    match f.decompress with
    | some st =>
      match deflateSeek st f.pos pos with
      | some (st, ofs) => some (true, raw, { f with decompress := some st, pos := ofs })
      | none =>
        if pos = 0 then
          let (ok, f) := seekWithin { f with decompress := some (decompressRewind D st) } pos
          some (ok, raw, f)
        else if temp then do
          let (defer, raw) ← toTempFile crctable D fuel raw st buffer
          some (true, raw, { f with decompress := none, defer := some (defer.seek pos) })
        else some (false, raw, { f with decompress := none })
    | none =>
      let (ok, f) := seekWithin f pos
      some (ok, raw, f)

/-- `VFSZIP_Tell`. -/
def tell (f : VfsZip σ) : ℕ :=
  match f.defer with
  | some defer => defer.pos
  | none => f.pos

/-! ## The local header -/

/-- A loop over the extra chunks of a local header, for the two sizes. -/
def walkLocal (data : List QByte) (extraend : ℕ) : ℕ → ℕ → ℕ × ℕ → Option (ℕ × ℕ)
  | 0, _, sizes => some sizes
  | fuel + 1, extra, (usize, csize) =>
    if extra + 4 < extraend then do
      let tag ← readLE data extra 2
      let len ← readLE data (extra + 2) 2
      if extraend < extra + len then some (usize, csize)
      else if tag = 1 then do
        let (extra, usize) ← ZipDirectory.zip64Field data (extra + 4) usize 0xffffffff 8
        let (extra, csize) ← ZipDirectory.zip64Field data extra csize 0xffffffff 8
        walkLocal data extraend fuel extra (usize, csize)
      else walkLocal data extraend fuel (extra + 4 + len) (usize, csize)
    else some (usize, csize)

/-- The sizes of a local header. Its extra chunks are looked at when one of the two is all ones. -/
def localSizes (raw : List QByte) (extra extraLen usize csize : ℕ) : Option (ℕ × ℕ) :=
  if usize = 0xffffffff ∨ csize = 0xffffffff then
    walkLocal ((raw.drop extra).take 65536) extraLen extraLen 0 (usize, csize)
  else some (usize, csize)

/-- `ZFL_COMPRESSIONTYPE`. -/
def zflCompressiontype : BitVec 32 :=
  ZipDirectory.zflStored ||| ZipDirectory.zflCorrupt ||| ZipDirectory.zflDeflated |||
    ZipDirectory.zflDeflate64d ||| ZipDirectory.zflBzip2 ||| ZipDirectory.zflLzma

/-- The method of a local header is known, and it is that of the central directory. -/
def knownMethod (cmethod : ℕ) (type : BitVec 32) : Bool :=
  if cmethod = 0 then type = ZipDirectory.zflStored
  else if cmethod = 8 then type = ZipDirectory.zflDeflated
  else if cmethod = 14 then type = ZipDirectory.zflLzma
  else false

/-- `FSZIP_ValidateLocalHeader`: where the data starts, and its size. Bytes that the archive does not
have are not defined. -/
def validateLocalHeader (raw : List QByte) (zfile : ZPackFile) : Option (Option (ℕ × ℕ)) := do
  let start := zfile.localpos.toNat
  let signed ← ZipDirectory.signature raw start [0x50, 0x4b, 3, 4]
  if ¬ signed then some none
  else
    let _versionNeeded ← readLE raw (start + 4) 2
    let gpflags ← readLE raw (start + 6) 2
    let cmethod ← readLE raw (start + 8) 2
    let _lastmodfiletime ← readLE raw (start + 10) 2
    let _lastmodfiledate ← readLE raw (start + 12) 2
    let crc32 ← readLE raw (start + 14) 4
    let csize ← readLE raw (start + 18) 4
    let usize ← readLE raw (start + 22) 4
    let fnameLen ← readLE raw (start + 26) 2
    let extraLen ← readLE raw (start + 28) 2
    let extra := start + 30 + fnameLen
    let (usize, csize) ← localSizes raw extra extraLen usize csize
    let datastart := extra + extraLen
    if BitVec.ofNat 16 gpflags &&& (1 <<< 3) = 0 ∧ (crc32 ≠ zfile.crc ∨ usize ≠ zfile.filelen) then
      some none
    else if raw.length < datastart + csize then some none
    else
      some (if knownMethod cmethod (zfile.flags &&& zflCompressiontype) then some (datastart, csize)
        else none)

/-- `FSZIP_OpenVFS` on a member that is stored or deflated, in the archive that has it. -/
def openVfs (raw : VfsFile) (password : List QByte) (zfile : ZPackFile) :
    Option (Option (VfsZip σ)) :=
  if zfile.flags &&& ZipDirectory.zflCorrupt ≠ 0 then some none
  else do
    let header ← validateLocalHeader raw.data zfile
    match header with
    | none => some none
    | some (startpos, datasize) =>
      if zfile.flags &&& ZipDirectory.zflDeflated ≠ 0 then
        let password :=
          if zfile.flags &&& ZipDirectory.zflWeakencrypt ≠ 0 then some password else none
        let st ← deflateInit crctable D raw startpos datasize zfile.filelen password zfile.crc
        some (st.map fun st => ⟨none, some st, 0, zfile.filelen, startpos⟩)
      else some (some ⟨none, none, 0, zfile.filelen, startpos⟩)

/-! ## What members stand for -/

/-- `FSZIP_DecryptBlock` the other way. -/
def encryptBlock : Keys → List QByte → List QByte × Keys
  | k, [] => ([], k)
  | k, c :: block =>
    let r := encryptBlock (updateKeys crctable k c) block
    ((c ^^^ decryptByte k) :: r.1, r.2)

/-- A local header. -/
structure LocalHeader where
  versionNeeded : BitVec 16
  gpflags : BitVec 16
  cmethod : BitVec 16
  lastmodfiletime : BitVec 16
  lastmodfiledate : BitVec 16
  crc32 : BitVec 32
  csize : BitVec 32
  usize : BitVec 32
  fname : List QByte
  extras : List Extra

/-- What an extra field says about the sizes. -/
def applySizes (sizes : ℕ × ℕ) : Extra → ℕ × ℕ
  | .zip64 usize csize _ _ => (fieldValue sizes.1 usize, fieldValue sizes.2 csize)
  | _ => sizes

/-- An extra field of a local header is well formed: zip64 has the sizes that are all ones. -/
def AllowsSizes (sizes : ℕ × ℕ) : Extra → Prop
  | .zip64 usize csize localheaderoffset disknum =>
    (usize.isSome ↔ sizes.1 = 0xffffffff) ∧ (csize.isSome ↔ sizes.2 = 0xffffffff) ∧
    localheaderoffset = none ∧ disknum = none
  | x => x.tag ≠ 1

/-- Extra fields are well formed, one after the other. -/
def AllowsAllSizes : ℕ × ℕ → List Extra → Prop
  | _, [] => True
  | sizes, x :: xs => AllowsSizes sizes x ∧ AllowsAllSizes (applySizes sizes x) xs

namespace LocalHeader

variable (h : LocalHeader)

/-- The extra fields of a local header. -/
def extra : List QByte := h.extras.flatMap Extra.bytes

/-- The numbers of a local header, with their sizes. -/
def fields : List (ℕ × ℕ) :=
  [(2, h.versionNeeded.toNat), (2, h.gpflags.toNat), (2, h.cmethod.toNat),
    (2, h.lastmodfiletime.toNat), (2, h.lastmodfiledate.toNat), (4, h.crc32.toNat),
    (4, h.csize.toNat), (4, h.usize.toNat), (2, h.fname.length), (2, h.extra.length)]

/-- The bytes of a local header. -/
def bytes : List QByte :=
  [0x50, 0x4b, 3, 4] ++ ((h.fields.flatMap fun f => leBytes f.1 f.2) ++ (h.fname ++ h.extra))

/-- The sizes that the fixed part has. -/
def fixedSizes : ℕ × ℕ := (h.usize.toNat, h.csize.toNat)

/-- One of the sizes is in an extra field. -/
def IsZip64 : Prop := h.usize.toNat = 0xffffffff ∨ h.csize.toNat = 0xffffffff

instance : Decidable h.IsZip64 := inferInstanceAs (Decidable (_ ∨ _))

/-- The sizes of a local header, the uncompressed one first. -/
def sizes : ℕ × ℕ := if h.IsZip64 then h.extras.foldl applySizes h.fixedSizes else h.fixedSizes

/-- The parts of a local header fit their lengths, and the extra fields are well formed. -/
structure WellFormed : Prop where
  fname_lt : h.fname.length < 2 ^ 16
  extra_lt : h.extra.length < 2 ^ 16
  extras : h.IsZip64 → AllowsAllSizes h.fixedSizes h.extras

end LocalHeader

/-- How a member is kept: as it is, deflated, or deflated and encrypted behind eleven bytes of noise and
one of the checksum. -/
inductive Method
  | stored
  | deflated (d : List QByte)
  | encrypted (noise d : List QByte)

/-- A member of an archive, with its local header and its file. -/
structure Member where
  content : List QByte
  crc : BitVec 32
  method : Method
  header : LocalHeader
  zfile : ZPackFile

namespace Member

variable (password : List QByte) (m : Member)

/-- The header of an encrypted member. -/
def cryptheader (noise : List QByte) : List QByte := noise ++ [(m.crc >>> 24).setWidth 8]

/-- The data of a member. -/
def payload : List QByte :=
  match m.method with
  | .stored => m.content
  | .deflated d => d
  | .encrypted noise d =>
    (encryptBlock crctable (passwordKeys crctable password) (m.cryptheader noise ++ d)).1

/-- The sizes of the content and of the data. -/
def actualSizes : ℕ × ℕ := (m.content.length, (m.payload crctable password).length)

/-- The method of a member is what its header and its file say, and decodes to its contents. -/
def Kept (Decodes : List QByte → List QByte → Prop) : Prop :=
  match m.method with
  | .stored => m.header.cmethod = 0 ∧
    m.zfile.flags &&& zflCompressiontype = ZipDirectory.zflStored
  | .deflated d => Decodes d m.content ∧ m.header.cmethod = 8 ∧
    m.zfile.flags &&& zflCompressiontype = ZipDirectory.zflDeflated ∧
    m.zfile.flags &&& ZipDirectory.zflWeakencrypt = 0
  | .encrypted noise d => Decodes d m.content ∧ m.header.cmethod = 8 ∧
    m.zfile.flags &&& zflCompressiontype = ZipDirectory.zflDeflated ∧
    m.zfile.flags &&& ZipDirectory.zflWeakencrypt ≠ 0 ∧ noise.length = 11

/-- The local header of a member, its file and the archive agree. With a data descriptor the sizes of
the local header may be zero. -/
structure Agrees (Decodes : List QByte → List QByte → Prop) (raw : List QByte) : Prop where
  wellFormed : m.header.WellFormed
  kept : m.Kept Decodes
  holds : Holds raw m.zfile.localpos.toNat (m.header.bytes ++ m.payload crctable password)
  crc : m.zfile.crc = m.crc.toNat
  filelen : m.zfile.filelen = m.content.length
  described : m.header.gpflags &&& (1 <<< 3) = 0 →
    m.header.crc32 = m.crc ∧ m.header.sizes = m.actualSizes crctable password
  undescribed : m.header.gpflags &&& (1 <<< 3) ≠ 0 →
    m.header.sizes = (0, 0) ∨ m.header.sizes = m.actualSizes crctable password

/-- The condition on a member: its local header has the size of its data, unless nothing has to be
decompressed. -/
def Sized : Prop :=
  m.method = .stored ∨ m.content = [] ∨ m.header.sizes.2 = (m.payload crctable password).length

end Member

/-! ## Runs -/

/-- A call on an opened member; a seek may find anything in the buffer for the copy. -/
inductive Op
  | read (n : ℕ)
  | seek (pos : ℕ) (buffer : Mem QByte)
  | tell

/-- What a call returns. -/
inductive Reply
  | bytes (bytes : List QByte)
  | done (ok : Bool)
  | ofs (pos : ℕ)
  deriving DecidableEq

/-- The file of an archive, and opened members of it. -/
structure World (ι σ : Type) where
  raw : VfsFile
  files : ι → VfsZip σ

variable {ι : Type} [DecidableEq ι]

/-- A call on a member. -/
def World.exec (fuel : ℕ) (w : World ι σ) (i : ι) : Op → Option (Reply × World ι σ)
  | .read n => (readBytes crctable D fuel w.raw (w.files i) n).map fun r =>
    (.bytes r.1, ⟨r.2.1, Function.update w.files i r.2.2⟩)
  | .seek pos buffer => (seek crctable D fuel true buffer w.raw (w.files i) pos).map fun r =>
    (.done r.1, ⟨r.2.1, Function.update w.files i r.2.2⟩)
  | .tell => some (.ofs (tell (w.files i)), w)

/-- Calls on members, one after the other. -/
def World.run (fuel : ℕ) : World ι σ → List (ι × Op) → Option (List Reply)
  | _, [] => some []
  | w, (i, op) :: ops => (w.exec crctable D fuel i op).bind fun r =>
    (World.run fuel r.2 ops).map (r.1 :: ·)

/-- A call on a list of bytes at a position. -/
def Plain.exec (content : List QByte) (pos : ℕ) : Op → Reply × ℕ
  | .read n => (.bytes ((content.drop pos).take n), pos + ((content.drop pos).take n).length)
  | .seek pos _ => (.done true, pos)
  | .tell => (.ofs pos, pos)

/-- Calls on lists of bytes, each with its position. -/
def Plain.run (content : ι → List QByte) : (ι → ℕ) → List (ι × Op) → List Reply
  | _, [] => []
  | pos, (i, op) :: ops =>
    let r := Plain.exec (content i) (pos i) op
    r.1 :: Plain.run content (Function.update pos i r.2) ops

/-- The positions are in range. -/
def InRange (content : List QByte) : Op → Prop
  | .seek pos _ => pos ≤ content.length
  | _ => True

/-- The members are lists of bytes, whatever calls are made on them. -/
def Behaves (w : World ι σ) (content : ι → List QByte) : Prop :=
  ∀ ops : List (ι × Op), (∀ c ∈ ops, InRange (content c.1) c.2) →
    Returns (fun fuel => w.run crctable D fuel ops) (Plain.run content (fun _ => 0) ops)

/-! ## Encryption -/

section Crypt

variable {crctable : QByte → BitVec 32} {k : Keys}

@[simp] theorem length_encryptBlock (k : Keys) (l : List QByte) :
    (encryptBlock crctable k l).1.length = l.length := by
  induction l generalizing k with
  | nil => rfl
  | cons c l ih => rw [encryptBlock, length_cons, ih, length_cons]

theorem encryptBlock_append (k : Keys) (l l' : List QByte) :
    encryptBlock crctable k (l ++ l') =
      ((encryptBlock crctable k l).1 ++ (encryptBlock crctable (encryptBlock crctable k l).2 l').1,
        (encryptBlock crctable (encryptBlock crctable k l).2 l').2) := by
  induction l generalizing k with
  | nil => rfl
  | cons c l ih => rw [cons_append, encryptBlock, ih, encryptBlock, cons_append]

theorem decryptBlock_encryptBlock (k : Keys) (l : List QByte) :
    decryptBlock crctable k (encryptBlock crctable k l).1 = (l, (encryptBlock crctable k l).2) := by
  induction l generalizing k with
  | nil => rfl
  | cons c l ih =>
    have hbyte : c ^^^ decryptByte k ^^^ decryptByte k = c := by
      rw [BitVec.xor_assoc, BitVec.xor_self, BitVec.xor_zero]
    rw [encryptBlock, decryptBlock, hbyte, ih]

/-- A piece of encrypted data, with the keys behind what comes before it. -/
theorem drop_take_encryptBlock (k : Keys) (l : List QByte) (u n : ℕ) :
    ((encryptBlock crctable k l).1.drop u).take n =
      (encryptBlock crctable (encryptBlock crctable k (l.take u)).2 ((l.drop u).take n)).1 := by
  have hl : l = l.take u ++ ((l.drop u).take n ++ (l.drop u).drop n) := by
    rw [take_append_drop, take_append_drop]
  by_cases hu : u ≤ l.length
  · have hlen : (encryptBlock crctable k (l.take u)).1.length = u := by
      rw [length_encryptBlock, length_take, Nat.min_eq_left hu]
    conv_lhs => rw [hl]
    rw [encryptBlock_append, encryptBlock_append, drop_left' hlen]
    by_cases hn : n ≤ (l.drop u).length
    · rw [take_left']
      rw [length_encryptBlock, length_take, Nat.min_eq_left hn]
    · rw [drop_eq_nil_of_le (Nat.le_of_not_le hn)]
      simp only [encryptBlock, append_nil]
      rw [take_of_length_le]
      rw [length_encryptBlock, length_take]
      exact Nat.min_le_left _ _
  · have hnil : l.drop u = [] := drop_eq_nil_of_le (Nat.le_of_not_le hu)
    rw [hnil, drop_eq_nil_of_le (by rw [length_encryptBlock]; omega)]
    simp [encryptBlock]

end Crypt

/-! ## Feeding -/

section Feed

variable {crctable : QByte → BitVec 32} {arch d c x : List QByte} {st : DecompressState σ}

/-- The compressed data `d` of a member with the content `c` lies in the archive. -/
structure Placed (crctable : QByte → BitVec 32) (arch d c : List QByte) (st : DecompressState σ) :
    Prop where
  cend : st.cend = st.cstart + d.length
  usize : st.usize = c.length
  holds : Holds arch st.cstart
    (if st.encrypted then (encryptBlock crctable st.initialkey d).1 else d)

/-- So many bytes of the compressed data have been fetched. -/
structure Fetched (crctable : QByte → BitVec 32) (d : List QByte) (u : ℕ) (st : DecompressState σ) :
    Prop where
  cofs : st.cofs = st.cstart + u
  le : u ≤ d.length
  keys : st.encrypted = true → st.cryptkey = (encryptBlock crctable st.initialkey (d.take u)).2

/-- What is read where compressed data lies. -/
theorem Placed.read (hp : Placed crctable arch d c st) {u n : ℕ} (hn : u + n ≤ d.length)
    (raw : VfsFile) (hraw : raw.data = arch) :
    (raw.seek (st.cstart + u)).read n =
      (if st.encrypted then (encryptBlock crctable
          (encryptBlock crctable st.initialkey (d.take u)).2 ((d.drop u).take n)).1
        else (d.drop u).take n, ⟨arch, st.cstart + u + n⟩) := by
  have hlen : ((d.drop u).take n).length = n := by
    rw [length_take, length_drop]
    omega
  subst hraw
  have hholds := hp.holds
  unfold VfsFile.read VfsFile.seek
  cases henc : st.encrypted with
  | false =>
    rw [henc] at hholds
    have hpiece := Holds.drop_take hholds hn
    simp only [Bool.false_eq_true, if_false] at hpiece ⊢
    rw [hpiece, hlen]
  | true =>
    rw [henc] at hholds
    have hpiece := Holds.drop_take hholds (u := u) (n := n) (by rwa [if_pos rfl, length_encryptBlock])
    rw [if_pos rfl, drop_take_encryptBlock] at hpiece
    simp only [if_true]
    rw [hpiece, length_encryptBlock, hlen]

/-- Input is there after it was asked for, up to the end of the compressed data. -/
theorem feed_spec (hp : Placed crctable arch d c st) (hf : Fetched crctable d (x.length + st.nextIn.length) st)
    (hx : x ++ st.nextIn <+: d) (raw : VfsFile) (hraw : raw.data = arch) :
    ∃ raw' next cofs key, raw'.data = arch ∧
      feed crctable raw st = (raw', { st with nextIn := next, cofs := cofs, cryptkey := key }) ∧
      Fetched crctable d (x.length + next.length) { st with nextIn := next, cofs := cofs, cryptkey := key } ∧
      x ++ next <+: d ∧ (next = [] → x = d) := by
  by_cases hnil : st.nextIn = []
  · rw [hnil, length_nil, Nat.add_zero] at hf
    rw [hnil, append_nil] at hx
    have hcend := hp.cend
    have hcofs := hf.cofs
    have hle := hf.le
    by_cases hsz : min (st.cend - st.cofs) bufSize = 0
    · refine ⟨raw, [], st.cofs, st.cryptkey, hraw, ?_, ⟨hcofs, hle, hf.keys⟩, by rwa [append_nil],
        fun _ => hx.eq_of_length_le (by simp only [bufSize] at hsz; omega)⟩
      rw [feed, if_neg (not_not.2 hnil), if_pos hsz, ← hnil]
    · generalize hn : min (st.cend - st.cofs) bufSize = sz at hsz
      have hread := hp.read (u := x.length) (n := sz) (by omega) raw hraw
      rw [← hcofs] at hread
      have hlen : ((d.drop x.length).take sz).length = sz := by
        rw [length_take, length_drop]
        omega
      have htake : d.take (x.length + sz) = d.take x.length ++ (d.drop x.length).take sz := take_add
      have happ : x ++ (d.drop x.length).take sz <+: d := by
        have hxd := List.prefix_iff_eq_take.1 hx
        conv_lhs => rw [hxd]
        rw [length_take, Nat.min_eq_left hle, ← htake]
        exact take_prefix _ _
      have hne : (d.drop x.length).take sz ≠ [] := fun h => by
        rw [h, length_nil] at hlen
        exact hsz hlen.symm
      cases henc : st.encrypted with
      | false =>
        rw [henc, if_neg Bool.false_ne_true] at hread
        refine ⟨⟨arch, st.cofs + sz⟩, (d.drop x.length).take sz, st.cofs + sz, st.cryptkey, rfl, ?_,
          ⟨?_, ?_, fun h => absurd h Bool.false_ne_true⟩, happ, fun h => absurd h hne⟩
        · rw [feed, if_neg (not_not.2 hnil)]
          simp only [hn, if_neg hsz, hread, henc, hlen]
          rfl
        · rw [hlen]
          simp only [hcofs, Nat.add_assoc]
        · rw [hlen]
          omega
      | true =>
        rw [henc, if_pos rfl] at hread
        have hkeys := hf.keys henc
        refine ⟨⟨arch, st.cofs + sz⟩, (d.drop x.length).take sz, st.cofs + sz,
          (encryptBlock crctable st.initialkey (d.take (x.length + sz))).2, rfl, ?_,
          ⟨?_, ?_, fun _ => by rw [hlen]⟩, happ, fun h => absurd h hne⟩
        · rw [feed, if_neg (not_not.2 hnil)]
          simp [hn, if_neg hsz, hread, henc, hkeys, decryptBlock_encryptBlock, hlen, length_encryptBlock, htake,
            encryptBlock_append]
        · rw [hlen]
          simp only [hcofs, Nat.add_assoc]
        · rw [hlen]
          omega
  · exact ⟨raw, st.nextIn, st.cofs, st.cryptkey, hraw, by rw [feed, if_pos hnil],
      ⟨hf.cofs, hf.le, hf.keys⟩, hx, fun h => absurd h hnil⟩

end Feed

/-! ## Reading -/

/-- A decoder after the part `x` of the compressed data `d`, of which the part `y` of the content `c`
came out. -/
inductive Decoding (D : Decoder σ QByte) (d c x y : List QByte) (s : σ) : Prop
  | live (hfed : Fed D s x y) (hx : x <+: d) (hy : y <+: c)
  | ended (hx : x = d) (hy : y = c) (h : ∀ f i n, D.run s f i n = ⟨.streamEnd, 0, [], s⟩)

/-- A member that has put out `z` before what is in its buffer. -/
structure Reading (crctable : QByte → BitVec 32) (D : Decoder σ QByte) (arch d c x z : List QByte)
    (st : DecompressState σ) : Prop where
  placed : Placed crctable arch d c st
  fetched : Fetched crctable d (x.length + st.nextIn.length) st
  input : x ++ st.nextIn <+: d
  decoding : Decoding D d c x (z ++ st.out) st.strm
  offset : st.readoffset ≤ st.out.length

section Read

variable {crctable : QByte → BitVec 32} {D : Decoder σ QByte}
  {Decodes : List QByte → List QByte → Prop} {arch d c x y z : List QByte} {st : DecompressState σ}

theorem Decoding.prefix {s : σ} (h : Decoding D d c x y s) : y <+: c := by
  cases h with
  | live _ _ hy => exact hy
  | ended _ hy => exact hy ▸ prefix_rfl

theorem Decoding.used {s : σ} (h : Decoding D d c x y s) : x <+: d := by
  cases h with
  | live _ hx => exact hx
  | ended hx => exact hx ▸ prefix_rfl

/-- A run of the decoder on what there is of the compressed data. -/
theorem Decoding.inflate {s : σ} (hD : Correct D Decodes) (hk : Drains D Decodes bufSize) (hdec : Decodes d c)
    (h : Decoding D d c x y s) {i : List QByte} (hi : x ++ i <+: d) (hend : i = [] → x = d) :
    ∃ ret used out t, D.run s false i bufSize = ⟨ret, used, out, t⟩ ∧
      Decoding D d c (x ++ i.take used) (y ++ out) t ∧
      (ret = .streamEnd ∧ y ++ out = c ∨
        ret = .ok ∧ i ≠ [] ∧ x.length + y.length < (x ++ i.take used).length + (y ++ out).length) := by
  cases h with
  | live hfed hx hy =>
    by_cases hnil : i = []
    · obtain rfl := hend hnil
      obtain ⟨out, t, hrun, hout⟩ := hk.drain hdec hfed le_rfl
      subst hnil
      refine ⟨.streamEnd, 0, out, t, hrun, .ended (by simp) hout ?_, .inl ⟨rfl, hout⟩⟩
      have hended := hD.ended (s := s) (f := false) (i := []) (n := bufSize) (by rw [hrun])
      rwa [hrun] at hended
    · have hstep := hD.feed hdec hfed hx (.inl hi) hnil (show 0 < bufSize by decide)
      have hnext := Fed.run (D := D) i bufSize (y := y) (x := x) (s := s)
      have hended := hD.ended (s := s) (f := false) (i := i) (n := bufSize)
      generalize D.run s false i bufSize = r at hstep hnext hended
      cases hstep with
      | hungry out t hx' hy' hn =>
        refine ⟨.ok, i.length, out, t, rfl, .live (hnext rfl hfed) ?_ hy', .inr ⟨rfl, hnil, ?_⟩⟩
        · rwa [take_length]
        · have hpos := length_pos_of_ne_nil hnil
          rw [take_length, length_append, length_append]
          omega
      | full used out t hx' hy' hn =>
        refine ⟨.ok, used, out, t, rfl, .live (hnext rfl hfed) hx' hy', .inr ⟨rfl, hnil, ?_⟩⟩
        rw [length_append, length_append, hn, bufSize]
        omega
      | ended used out t hx' hy' hn =>
        exact ⟨.streamEnd, used, out, t, rfl, .ended hx' hy' (hended rfl), .inl ⟨rfl, hy'⟩⟩
  | ended hx hy hrun =>
    refine ⟨.streamEnd, 0, [], s, hrun _ _ _, ?_, .inl ⟨rfl, by rw [append_nil, hy]⟩⟩
    rw [take_zero, append_nil, append_nil]
    exact .ended hx hy hrun

/-- A round of the loop that fetches. -/
theorem Reading.round (hD : Correct D Decodes) (hk : Drains D Decodes bufSize) (hdec : Decodes d c)
    (h : Reading crctable D arch d c x z st) (raw : VfsFile) (hraw : raw.data = arch) :
    ∃ raw' st₁ ret st' x', feed crctable raw { st with out := [], readoffset := 0 } = (raw', st₁) ∧
      raw'.data = arch ∧ ZipMember.inflate D st₁ = (ret, st') ∧
      Reading crctable D arch d c x' (z ++ st.out) st' ∧ st'.readoffset = 0 ∧ x.length ≤ x'.length ∧
      (ret = .streamEnd ∧ z ++ st.out ++ st'.out = c ∨ ret = .ok ∧ st₁.nextIn ≠ [] ∧
        x.length + (z ++ st.out).length < x'.length + (z ++ st.out ++ st'.out).length) := by
  have hplaced : Placed crctable arch d c { st with out := [], readoffset := 0 } :=
    ⟨h.placed.cend, h.placed.usize, h.placed.holds⟩
  obtain ⟨raw', next, cofs, key, hraw', hfeed, hfetched, hinput, hend⟩ := feed_spec hplaced
    ⟨h.fetched.cofs, h.fetched.le, h.fetched.keys⟩ h.input raw hraw
  obtain ⟨ret, used, out, t, hrun, hdecoding, hret⟩ := h.decoding.inflate hD hk hdec hinput hend
  have hjoin : x ++ next.take used ++ next.drop used = x ++ next := by
    rw [append_assoc, take_append_drop]
  have hlen : (x ++ next.take used).length + (next.drop used).length = x.length + next.length := by
    rw [← length_append, hjoin, length_append]
  refine ⟨raw', _, ret, { st with
    nextIn := next.drop used
    out := out
    readoffset := 0
    cofs := cofs
    cryptkey := key
    strm := t }, x ++ next.take used, hfeed, hraw', ?_, ⟨?_, ?_, ?_, hdecoding, ?_⟩, rfl, ?_, hret⟩
  · simp only [ZipMember.inflate, hrun]
  · exact ⟨h.placed.cend, h.placed.usize, h.placed.holds⟩
  · refine ⟨?_, ?_, ?_⟩
    · simp only [hlen]
      exact hfetched.cofs
    · simp only [hlen]
      exact hfetched.le
    · simp only [hlen]
      exact hfetched.keys
  · rwa [hjoin]
  · exact Nat.zero_le _
  · rw [length_append]
    omega

/-- The loop of a read, from a position. The induction is on what is left to copy, to feed and to put
out. -/
theorem Reading.readLoop (hD : Correct D Decodes) (hk : Drains D Decodes bufSize) (hdec : Decodes d c)
    (b : ℕ) (h : Reading crctable D arch d c x z st) (raw : VfsFile) (hraw : raw.data = arch) (n : ℕ)
    (eof : Bool) (heof : eof = true → z ++ st.out = c)
    (hb : n + ((d.length - x.length) + (c.length - (z ++ st.out).length)) + (if eof then 0 else 1) ≤ b) :
    ∃ raw' st' x' z', Returns (fun fuel => deflateReadLoop crctable D fuel eof raw st n)
        ((c.drop (z.length + st.readoffset)).take n, raw', st') ∧ raw'.data = arch ∧
      Reading crctable D arch d c x' z' st' ∧
      z'.length + st'.readoffset = min (z.length + st.readoffset + n) c.length := by
  induction b using Nat.strong_induction_on generalizing x z st raw n eof with
  | _ b ih =>
  have hpre := h.decoding.prefix
  have hle := hpre.length_le
  have hoffset := h.offset
  rw [length_append] at hle
  by_cases hzero : n = 0
  · subst hzero
    refine ⟨raw, st, x, z, .of_succ (fun fuel => ?_) (.const _), hraw, h, ?_⟩
    · rw [deflateReadLoop, if_pos rfl, take_zero]
    · omega
  by_cases hcopy : st.readoffset < st.out.length
  · generalize hconsume : min (st.out.length - st.readoffset) n = consume
    have hnext : Reading crctable D arch d c x z { st with readoffset := st.readoffset + consume } :=
      ⟨⟨h.placed.cend, h.placed.usize, h.placed.holds⟩,
        ⟨h.fetched.cofs, h.fetched.le, h.fetched.keys⟩, h.input, h.decoding, by
          show st.readoffset + consume ≤ st.out.length
          omega⟩
    obtain ⟨raw', st', x', z', hret, hraw', hreading, hpos⟩ := ih
      (n - consume + (d.length - x.length + (c.length - (z ++ st.out).length)) + if eof then 0 else 1)
      (by omega) hnext raw hraw (n - consume) eof heof le_rfl
    have hpiece : (st.out.drop st.readoffset).take consume ++
        (c.drop (z.length + (st.readoffset + consume))).take (n - consume) =
        (c.drop (z.length + st.readoffset)).take n := by
      obtain ⟨rest, hrest⟩ := hpre
      have hdrop : c.drop (z.length + st.readoffset) = st.out.drop st.readoffset ++ rest := by
        rw [← hrest, append_assoc, ← drop_drop, drop_left, drop_append_of_le_length hoffset]
      have hsplit : n = consume + (n - consume) := by omega
      rw [← Nat.add_assoc, ← drop_drop]
      conv_rhs => rw [hsplit]
      rw [take_add, hdrop, take_append_of_le_length]
      rw [length_drop]
      omega
    refine ⟨raw', st', x', z', .of_succ (fun fuel => ?_) (hpiece ▸ hret.map fun r =>
      ((st.out.drop st.readoffset).take consume ++ r.1, r.2)), hraw', hreading, ?_⟩
    · rw [deflateReadLoop, if_neg hzero, if_pos hcopy]
      simp only [hconsume]
    · rw [hpos]
      show min (z.length + (st.readoffset + consume) + (n - consume)) c.length = _
      omega
  · obtain heq : st.readoffset = st.out.length := by omega
    have hpos : z.length + st.readoffset = (z ++ st.out).length := by rw [heq, length_append]
    cases eof with
    | true =>
      have hc := heof rfl
      refine ⟨raw, st, x, z, .of_succ (fun fuel => ?_) (.const _), hraw, h, ?_⟩
      · rw [deflateReadLoop, if_neg hzero, if_neg hcopy, if_pos rfl, hpos, hc, drop_length, take_nil]
      · rw [hpos, hc]
        omega
    | false =>
      obtain ⟨raw₁, st₁, ret, st₂, x₂, hfeed, hraw₁, hinflate, hreading, hzero₂, hx₂, hret⟩ :=
        h.round hD hk hdec raw hraw
      have hpos₂ : (z ++ st.out).length + st₂.readoffset = z.length + st.readoffset := by
        rw [hzero₂, hpos, Nat.add_zero]
      have hgrow : (z ++ st.out).length ≤ (z ++ st.out ++ st₂.out).length :=
        (prefix_append _ _).length_le
      have hx₃ := hreading.decoding.used.length_le
      have hy₃ := hreading.decoding.prefix.length_le
      rw [if_neg Bool.false_ne_true] at hb
      rw [← hpos₂]
      rcases hret with ⟨rfl, hc⟩ | ⟨rfl, hne, hlt⟩
      · obtain ⟨raw', st', x', z', hret, hend⟩ := ih
          (n + (d.length - x₂.length + (c.length - (z ++ st.out ++ st₂.out).length)) + 0) (by omega)
          hreading raw₁ hraw₁ n true (fun _ => hc) le_rfl
        refine ⟨raw', st', x', z', .of_succ (fun fuel => ?_) hret, hend⟩
        rw [deflateReadLoop, if_neg hzero, if_neg hcopy, if_neg Bool.false_ne_true]
        simp only [hfeed, hinflate]
      · obtain ⟨raw', st', x', z', hret, hend⟩ := ih
          (n + (d.length - x₂.length + (c.length - (z ++ st.out ++ st₂.out).length)) + 1) (by omega)
          hreading raw₁ hraw₁ n false (fun h => absurd h Bool.false_ne_true) le_rfl
        refine ⟨raw', st', x', z', .of_succ (fun fuel => ?_) hret, hend⟩
        rw [deflateReadLoop, if_neg hzero, if_neg hcopy, if_neg Bool.false_ne_true]
        simp only [hfeed, hinflate, decide_eq_false hne]

/-- `FSZIP_Deflate_Read` gives the bytes of the content from the position on. -/
theorem Reading.read (hD : Correct D Decodes) (hk : Drains D Decodes bufSize) (hdec : Decodes d c)
    (h : Reading crctable D arch d c x z st) (raw : VfsFile) (hraw : raw.data = arch) (n : ℕ) :
    ∃ raw' st' x' z', Returns (fun fuel => deflateRead crctable D fuel raw st n)
        ((c.drop (z.length + st.readoffset)).take n, raw', st') ∧ raw'.data = arch ∧
      Reading crctable D arch d c x' z' st' ∧
      z'.length + st'.readoffset = min (z.length + st.readoffset + n) c.length :=
  h.readLoop hD hk hdec _ raw hraw n false (fun h => absurd h Bool.false_ne_true) le_rfl

/-- A position is inside of the content. -/
theorem Reading.pos_le (h : Reading crctable D arch d c x z st) :
    z.length + st.readoffset ≤ c.length := by
  have hle := h.decoding.prefix.length_le
  have hoffset := h.offset
  rw [length_append] at hle
  omega

/-- `FSZIP_Deflate_Seek`, where it can be done in the buffer. -/
theorem Reading.seek (h : Reading crctable D arch d c x z st) {pos ofs : ℕ} {st' : DecompressState σ}
    (hseek : deflateSeek st (z.length + st.readoffset) pos = some (st', ofs)) :
    ofs = pos ∧ Reading crctable D arch d c x z st' ∧ z.length + st'.readoffset = pos := by
  have hoffset := h.offset
  have hmoved : ∀ r, r ≤ st.out.length → Reading crctable D arch d c x z { st with readoffset := r } :=
    fun r hr => ⟨⟨h.placed.cend, h.placed.usize, h.placed.holds⟩,
      ⟨h.fetched.cofs, h.fetched.le, h.fetched.keys⟩, h.input, h.decoding, hr⟩
  unfold deflateSeek at hseek
  by_cases hle : pos ≤ z.length + st.readoffset
  · rw [if_pos hle] at hseek
    by_cases hdist : z.length + st.readoffset - pos ≤ st.readoffset
    · rw [if_pos hdist] at hseek
      cases hseek
      refine ⟨by omega, hmoved _ (by omega), ?_⟩
      show z.length + (st.readoffset - (z.length + st.readoffset - pos)) = pos
      omega
    · rw [if_neg hdist] at hseek
      cases hseek
  · rw [if_neg hle] at hseek
    by_cases hdist : st.readoffset + (pos - (z.length + st.readoffset)) ≤ st.out.length
    · rw [if_pos hdist] at hseek
      cases hseek
      refine ⟨by omega, hmoved _ hdist, ?_⟩
      show z.length + (st.readoffset + (pos - (z.length + st.readoffset))) = pos
      omega
    · rw [if_neg hdist] at hseek
      cases hseek

/-- `FSZIP_Decompress_Rewind` goes back to the start of the content. -/
theorem Placed.rewind (h : Placed crctable arch d c st) :
    Reading crctable D arch d c [] [] (decompressRewind D st) := by
  have hcend := h.cend
  refine ⟨⟨?_, h.usize, h.holds⟩, ⟨rfl, Nat.zero_le _, fun _ => rfl⟩, nil_prefix,
    .live .init nil_prefix nil_prefix, Nat.zero_le _⟩
  show st.cstart + (st.cend - st.cstart) = st.cstart + d.length
  omega

/-- A write at the end of a file. -/
theorem VfsFile.write_take (l : List QByte) {p n : ℕ} (hn : p + n ≤ l.length) :
    (⟨l.take p, p⟩ : VfsFile).write ((l.drop p).take n) = ⟨l.take (p + n), p + n⟩ := by
  have hlen : ((l.drop p).take n).length = n := by
    rw [length_take, length_drop]
    omega
  have hnil : (l.take p).drop (p + n) = [] := by
    rw [drop_eq_nil_of_le]
    rw [length_take]
    omega
  simp only [VfsFile.write, hlen, hnil, take_take, Nat.min_self, append_nil, take_add]

/-- The copy goes on to the end of the content. -/
theorem Reading.toTempLoop (hD : Correct D Decodes) (hk : Drains D Decodes bufSize) (hdec : Decodes d c) (b : ℕ)
    (h : Reading crctable D arch d c x z st) (raw : VfsFile) (hraw : raw.data = arch) (buffer : Mem QByte)
    (hb : c.length - (z.length + st.readoffset) ≤ b) :
    ∃ raw', Returns (fun fuel => ZipMember.toTempLoop crctable D fuel raw st buffer
        ⟨c.take (z.length + st.readoffset), z.length + st.readoffset⟩ (z.length + st.readoffset))
        (⟨c, c.length⟩, raw') ∧ raw'.data = arch := by
  induction b using Nat.strong_induction_on generalizing x z st raw buffer with
  | _ b ih =>
  have hle := h.pos_le
  have husize := h.placed.usize
  by_cases hend : z.length + st.readoffset < st.usize
  · generalize hchunk : min (st.usize - (z.length + st.readoffset)) bufSize = chunk
    have hpos : 0 < chunk := by
      rw [← hchunk]
      exact Nat.lt_min.2 ⟨by omega, by decide⟩
    obtain ⟨raw₁, st₁, x₁, z₁, hret, hraw₁, hreading, hpos₁⟩ := h.read hD hk hdec raw hraw chunk
    have hlen : ((c.drop (z.length + st.readoffset)).take chunk).length = chunk := by
      rw [length_take, length_drop]
      omega
    have hpos₂ : z₁.length + st₁.readoffset = z.length + st.readoffset + chunk := by omega
    obtain ⟨raw', hret', hraw'⟩ := ih (c.length - (z₁.length + st₁.readoffset)) (by omega) hreading raw₁
      hraw₁ (buffer.blit 0 ((c.drop (z.length + st.readoffset)).take chunk)) le_rfl
    have hslice : (buffer.blit 0 ((c.drop (z.length + st.readoffset)).take chunk)).slice 0 chunk =
        (c.drop (z.length + st.readoffset)).take chunk := by
      have hself := Mem.slice_blit_self buffer 0 ((c.drop (z.length + st.readoffset)).take chunk)
      rwa [hlen] at hself
    generalize hpiece : (c.drop (z.length + st.readoffset)).take chunk = piece at hlen hret hret' hslice
    have hne : piece ≠ [] := by
      rintro rfl
      exact hpos.ne hlen
    have hwrite := VfsFile.write_take c (show z.length + st.readoffset + chunk ≤ c.length by omega)
    rw [hpiece, ← hpos₂] at hwrite
    refine ⟨raw', .of_succ (fun fuel => ?_) (hret.bind (g := fun fuel r =>
      if r.1 = [] then some (⟨c.take (z.length + st.readoffset), z.length + st.readoffset⟩, r.2.1)
      else ZipMember.toTempLoop crctable D fuel r.2.1 r.2.2 (buffer.blit 0 r.1)
        ((⟨c.take (z.length + st.readoffset), z.length + st.readoffset⟩ : VfsFile).write
          ((buffer.blit 0 r.1).slice 0 chunk)) (z.length + st.readoffset + chunk)) ?_), hraw'⟩
    · rw [ZipMember.toTempLoop, if_pos hend, hchunk]
      rfl
    · simp only [if_neg hne, hslice, hwrite, ← hpos₂]
      exact hret'
  · have heq : z.length + st.readoffset = c.length := by omega
    refine ⟨raw, .of_succ (fun fuel => ?_) (.const _), hraw⟩
    rw [ZipMember.toTempLoop, if_neg hend, heq, take_length]

end Read

/-! ## Opened members -/

/-- A member whose compressed data is taken to be empty. -/
structure Starving (D : Decoder σ QByte) (st : DecompressState σ) : Prop where
  nextIn : st.nextIn = []
  out : st.out = []
  readoffset : st.readoffset = 0
  cend : st.cend ≤ st.cofs
  strm : Starved D st.strm

/-- An opened member stands for the content `c` at a position: it is stored, it is decompressed, it was
copied, or it has no content. -/
inductive Opened (crctable : QByte → BitVec 32) (D : Decoder σ QByte)
    (Decodes : List QByte → List QByte → Prop) (arch c : List QByte) : VfsZip σ → ℕ → Prop
  | stored {startpos pos : ℕ} (hholds : Holds arch startpos c) (hpos : pos ≤ c.length) :
    Opened crctable D Decodes arch c ⟨none, none, pos, c.length, startpos⟩ pos
  | reading {d x z : List QByte} {st : DecompressState σ} {startpos pos : ℕ} (hdec : Decodes d c)
    (h : Reading crctable D arch d c x z st) (hpos : z.length + st.readoffset = pos) :
    Opened crctable D Decodes arch c ⟨none, some st, pos, c.length, startpos⟩ pos
  | copied {decompress : Option (DecompressState σ)} {old startpos pos : ℕ} (hpos : pos ≤ c.length) :
    Opened crctable D Decodes arch c ⟨some ⟨c, pos⟩, decompress, old, c.length, startpos⟩ pos
  | starving {st : DecompressState σ} {startpos : ℕ} (hc : c = []) (h : Starving D st) :
    Opened crctable D Decodes arch c ⟨none, some st, 0, 0, startpos⟩ 0

section Opened

variable {crctable : QByte → BitVec 32} {D : Decoder σ QByte}
  {Decodes : List QByte → List QByte → Prop} {arch c : List QByte} {st : DecompressState σ}
  {f : VfsZip σ} {pos : ℕ}

/-- Without input nothing is read. -/
theorem Starving.read (crctable : QByte → BitVec 32) (hk : Drains D Decodes bufSize)
    (h : Starving D st) (raw : VfsFile) (n : ℕ) :
    ∃ st', Returns (fun fuel => deflateRead crctable D fuel raw st n) ([], raw, st') ∧
      Starving D st' := by
  have hfeed : feed crctable raw { st with out := [], readoffset := 0 } =
      (raw, { st with out := [], readoffset := 0 }) := by
    have hcend := h.cend
    rw [feed, if_neg (not_not.2 h.nextIn), if_pos]
    simp only [Nat.sub_eq_zero_of_le hcend, Nat.zero_min]
  by_cases hzero : n = 0
  · refine ⟨st, .of_succ (fun fuel => ?_) (.const _), h⟩
    rw [deflateRead, deflateReadLoop, if_pos hzero]
  have hout := hk.starved h.strm bufSize
  have hnext : Starving D (inflate D { st with out := [], readoffset := 0 }).2 := by
    refine ⟨?_, ?_, rfl, h.cend, ?_⟩
    · simp only [inflate, h.nextIn, drop_nil]
    · simp only [inflate, h.nextIn, hout]
    · simp only [inflate, h.nextIn]
      exact .run _ h.strm
  generalize hinflate : inflate D { st with out := [], readoffset := 0 } = r at hnext
  obtain ⟨ret, st'⟩ := r
  have hloop : ∀ fuel, deflateReadLoop crctable D (fuel + 1) true raw st' n = some ([], raw, st') := by
    intro fuel
    rw [deflateReadLoop, if_neg hzero, if_neg, if_pos rfl]
    rw [hnext.out, length_nil]
    exact Nat.not_lt_zero _
  refine ⟨st', ⟨2, fun fuel hfuel => ?_⟩, hnext⟩
  obtain ⟨k, rfl⟩ := Nat.exists_eq_add_of_le' hfuel
  show deflateReadLoop crctable D (k + 2) false raw st n = _
  rw [deflateReadLoop, if_neg hzero, if_neg, if_neg Bool.false_ne_true]
  · simp only [hfeed, hinflate, decide_eq_true h.nextIn]
    cases ret with
    | ok => exact hloop k
    | streamEnd => exact hloop k
    | error => rfl
  · rw [h.readoffset, h.out, length_nil]
    exact Nat.lt_irrefl 0

theorem Starving.readBytes (crctable : QByte → BitVec 32) (hk : Drains D Decodes bufSize)
    (h : Starving D st) (raw : VfsFile) (n pos length startpos : ℕ) :
    ∃ st', Returns (fun fuel => ZipMember.readBytes crctable D fuel raw
        ⟨none, some st, pos, length, startpos⟩ n) ([], raw, ⟨none, some st', pos, length, startpos⟩) ∧
      Starving D st' := by
  obtain ⟨st', hret, hst'⟩ := h.read crctable hk raw n
  exact ⟨st', hret.bind (.const _), hst'⟩

/-- A read of an opened member. -/
theorem Opened.readBytes (hD : Correct D Decodes) (hk : Drains D Decodes bufSize)
    (h : Opened crctable D Decodes arch c f pos) (raw : VfsFile) (hraw : raw.data = arch) (n : ℕ) :
    ∃ raw' f', Returns (fun fuel => ZipMember.readBytes crctable D fuel raw f n)
        ((c.drop pos).take n, raw', f') ∧ raw'.data = arch ∧
      Opened crctable D Decodes arch c f' (pos + ((c.drop pos).take n).length) := by
  have hlen : ((c.drop pos).take n).length = min n (c.length - pos) := by
    rw [length_take, length_drop]
  cases h with
  | @stored startpos _ hholds hpos =>
    generalize hm : (if c.length < pos + n then c.length - pos else n) = m
    have hle : pos + m ≤ c.length := by
      rw [← hm]
      split <;> omega
    have htake : (c.drop pos).take m = (c.drop pos).take n := by
      rw [← hm]
      split
      · rw [take_of_length_le (by rw [length_drop]), take_of_length_le]
        rw [length_drop]
        omega
      · rfl
    have hpiece := hholds.drop_take hle
    rw [Nat.add_comm startpos, ← hraw, htake] at hpiece
    refine ⟨⟨raw.data, pos + startpos + ((c.drop pos).take n).length⟩,
      ⟨none, none, pos + ((c.drop pos).take n).length, c.length, startpos⟩, ⟨0, fun fuel _ => ?_⟩, hraw,
      .stored hholds (by omega)⟩
    simp only [ZipMember.readBytes, VfsFile.read, VfsFile.seek, hm, hpiece]
  | @reading d x z st startpos _ hdec hreading hp =>
    obtain ⟨raw', st', x', z', hret, hraw', hreading', hend⟩ := hreading.read hD hk hdec raw hraw n
    rw [hp] at hret hend
    have hpos' : z'.length + st'.readoffset = pos + ((c.drop pos).take n).length := by
      have hle := hreading.pos_le
      omega
    exact ⟨raw', _, hret.bind (.const _), hraw', .reading hdec hreading' hpos'⟩
  | copied hpos =>
    exact ⟨raw, _, ⟨0, fun fuel _ => rfl⟩, hraw,
      .copied (show pos + ((c.drop pos).take n).length ≤ c.length by omega)⟩
  | @starving st startpos hc hst =>
    subst hc
    obtain ⟨st', hret, hst'⟩ := hst.readBytes crctable hk raw n 0 0 startpos
    rw [drop_nil, take_nil]
    exact ⟨raw, _, hret, hraw, .starving rfl hst'⟩

/-- A seek of an opened member. -/
theorem Opened.seek (hD : Correct D Decodes) (hk : Drains D Decodes bufSize)
    (h : Opened crctable D Decodes arch c f pos) (raw : VfsFile) (hraw : raw.data = arch)
    (buffer : Mem QByte) {ofs : ℕ} (hofs : ofs ≤ c.length) :
    ∃ raw' f', Returns (fun fuel => ZipMember.seek crctable D fuel true buffer raw f ofs)
        (true, raw', f') ∧ raw'.data = arch ∧ Opened crctable D Decodes arch c f' ofs := by
  cases h with
  | @stored startpos _ hholds hpos =>
    refine ⟨raw, ⟨none, none, ofs, c.length, startpos⟩, ⟨0, fun fuel _ => ?_⟩, hraw,
      .stored hholds hofs⟩
    simp only [ZipMember.seek, seekWithin, if_neg (Nat.not_lt.2 hofs)]
  | @reading d x z st startpos _ hdec hreading hp =>
    subst hp
    cases hseek : deflateSeek st (z.length + st.readoffset) ofs with
    | some r =>
      obtain ⟨st', ofs'⟩ := r
      obtain ⟨rfl, hreading', hpos'⟩ := hreading.seek hseek
      refine ⟨raw, ⟨none, some st', ofs', c.length, startpos⟩, ⟨0, fun fuel _ => ?_⟩, hraw,
        .reading hdec hreading' hpos'⟩
      simp only [ZipMember.seek, hseek]
    | none =>
      have hrewind := hreading.placed.rewind (D := D)
      by_cases hzero : ofs = 0
      · subst hzero
        refine ⟨raw, ⟨none, some (decompressRewind D st), 0, c.length, startpos⟩,
          ⟨0, fun fuel _ => ?_⟩, hraw, .reading hdec hrewind rfl⟩
        simp [ZipMember.seek, hseek, seekWithin]
      · obtain ⟨raw', hret, hraw'⟩ := hrewind.toTempLoop hD hk hdec _ raw hraw buffer le_rfl
        refine ⟨raw', ⟨some ⟨c, ofs⟩, none, z.length + st.readoffset, c.length, startpos⟩, ?_, hraw', .copied hofs⟩
        simp only [ZipMember.seek, hseek, if_neg hzero, if_true]
        exact hret.bind (.const _)
  | copied hpos => exact ⟨raw, _, ⟨0, fun fuel _ => rfl⟩, hraw, .copied hofs⟩
  | @starving st startpos hc hst =>
    subst hc
    obtain rfl := Nat.le_zero.1 hofs
    refine ⟨raw, ⟨none, some st, 0, 0, startpos⟩, ⟨0, fun fuel _ => ?_⟩, hraw, .starving rfl hst⟩
    simp [ZipMember.seek, deflateSeek]

theorem Opened.tell (h : Opened crctable D Decodes arch c f pos) : ZipMember.tell f = pos := by
  cases h with
  | stored | reading | copied | starving => rfl

end Opened

section Run

variable {crctable : QByte → BitVec 32} {D : Decoder σ QByte}
  {Decodes : List QByte → List QByte → Prop} {arch : List QByte} {ι : Type} [DecidableEq ι]
  {content : ι → List QByte} {w : World ι σ} {pos : ι → ℕ}

/-- The members of a world stand for their contents at their positions. -/
structure Stands (crctable : QByte → BitVec 32) (D : Decoder σ QByte)
    (Decodes : List QByte → List QByte → Prop) (arch : List QByte) (content : ι → List QByte)
    (w : World ι σ) (pos : ι → ℕ) : Prop where
  raw : w.raw.data = arch
  opened : ∀ i, Opened crctable D Decodes arch (content i) (w.files i) (pos i)

theorem Stands.update (h : Stands crctable D Decodes arch content w pos) {raw : VfsFile} {i : ι} {f : VfsZip σ}
    {ofs : ℕ} (hraw : raw.data = arch) (hf : Opened crctable D Decodes arch (content i) f ofs) :
    Stands crctable D Decodes arch content ⟨raw, Function.update w.files i f⟩
      (Function.update pos i ofs) := by
  refine ⟨hraw, fun j => ?_⟩
  by_cases hj : j = i
  · subst hj
    simpa only [Function.update_self] using hf
  · simpa only [Function.update_of_ne hj] using h.opened j

/-- One call. -/
theorem Stands.exec (hD : Correct D Decodes) (hk : Drains D Decodes bufSize)
    (h : Stands crctable D Decodes arch content w pos) (i : ι) {op : Op} (hop : InRange (content i) op) :
    ∃ w', Returns (fun fuel => w.exec crctable D fuel i op)
        ((Plain.exec (content i) (pos i) op).1, w') ∧
      Stands crctable D Decodes arch content w'
        (Function.update pos i (Plain.exec (content i) (pos i) op).2) := by
  cases op with
  | read n =>
    obtain ⟨raw', f', hret, hraw', hf'⟩ := (h.opened i).readBytes hD hk w.raw h.raw n
    have hmap := hret.map fun r => (Reply.bytes r.1,
      (⟨r.2.1, Function.update w.files i r.2.2⟩ : World ι σ))
    exact ⟨_, hmap, h.update hraw' hf'⟩
  | seek ofs buffer =>
    obtain ⟨raw', f', hret, hraw', hf'⟩ := (h.opened i).seek hD hk w.raw h.raw buffer hop
    have hmap := hret.map fun r => (Reply.done r.1,
      (⟨r.2.1, Function.update w.files i r.2.2⟩ : World ι σ))
    exact ⟨_, hmap, h.update hraw' hf'⟩
  | tell =>
    have htell := (h.opened i).tell
    refine ⟨w, ⟨0, fun fuel _ => ?_⟩, ?_⟩
    · simp only [World.exec, htell, Plain.exec]
    · simp only [Plain.exec, Function.update_eq_self]
      exact h

/-- **Calls on opened members return what they return on lists of bytes.** -/
theorem Stands.run (hD : Correct D Decodes) (hk : Drains D Decodes bufSize)
    (h : Stands crctable D Decodes arch content w pos) (ops : List (ι × Op))
    (hops : ∀ c ∈ ops, InRange (content c.1) c.2) :
    Returns (fun fuel => w.run crctable D fuel ops) (Plain.run content pos ops) := by
  induction ops generalizing w pos with
  | nil => exact .const _
  | cons op ops ih =>
    obtain ⟨i, op⟩ := op
    obtain ⟨w', hret, hw'⟩ := h.exec hD hk i (hops _ mem_cons_self)
    have hrest := ih hw' fun c hc => hops c (mem_cons_of_mem _ hc)
    exact hret.bind (hrest.map ((Plain.exec (content i) (pos i) op).1 :: ·))

end Run

/-! ## The local header -/

/-- An extra field with nothing behind its header says nothing about the sizes. -/
theorem applySizes_of_data_nil {sizes : ℕ × ℕ} {x : Extra} (h : x.data = []) :
    applySizes sizes x = sizes := by
  cases x with
  | zip64 usize csize localheaderoffset disknum =>
    have hview := ZipDirectory.apply_of_data_nil (v := ⟨sizes.1, sizes.2, 0, 0, 0, []⟩) h
    exact Prod.ext (congrArg ZipDirectory.View.usize hview) (congrArg ZipDirectory.View.csize hview)
  | _ => rfl

/-- The loop over the extra chunks of a local header. -/
theorem walkLocal_of_holds {data : List QByte} {a fuel : ℕ} {sizes : ℕ × ℕ} {xs : List Extra}
    (hx : AllowsAllSizes sizes xs) (h : Holds data a (xs.flatMap Extra.bytes))
    (hlen : (xs.flatMap Extra.bytes).length < 2 ^ 16) (hfuel : (xs.flatMap Extra.bytes).length ≤ fuel) :
    walkLocal data (a + (xs.flatMap Extra.bytes).length) fuel a sizes =
      some (xs.foldl applySizes sizes) := by
  induction xs generalizing a fuel sizes with
  | nil =>
    cases fuel with
    | zero => rfl
    | succ fuel =>
      rw [walkLocal, if_neg]
      · rfl
      · simp
  | cons x xs ih =>
    obtain ⟨usize, csize⟩ := sizes
    obtain ⟨hallows, hrest⟩ := hx
    rw [flatMap_cons, length_append, ZipDirectory.length_bytes] at hlen hfuel ⊢
    rw [flatMap_cons, Extra.bytes, append_assoc, append_assoc] at h
    obtain ⟨htag, h⟩ := holds_append.1 h
    obtain ⟨hcount, h⟩ := holds_append.1 h
    obtain ⟨hdata, hnext⟩ := holds_append.1 h
    rw [length_leBytes] at hcount hdata hnext
    rw [length_leBytes, Nat.add_assoc] at hdata hnext
    obtain ⟨fuel, rfl⟩ := Nat.exists_eq_add_of_lt (show 0 < fuel by omega)
    rw [Nat.zero_add] at hfuel ⊢
    by_cases hempty : x.data.length + (xs.flatMap Extra.bytes).length = 0
    · have hxs : xs = [] := by
        cases xs with
        | nil => rfl
        | cons y ys => simp at hempty
      have hxdata : x.data = [] := eq_nil_of_length_eq_zero (by omega)
      rw [walkLocal, if_neg (by omega), hxs, foldl_cons, foldl_nil,
        applySizes_of_data_nil hxdata]
    · have hwalk := ih hrest hnext (by omega) (show (xs.flatMap Extra.bytes).length ≤ fuel by omega)
      have hend : a + 2 + (2 + x.data.length) + (xs.flatMap Extra.bytes).length =
          a + (x.data.length + 4 + (xs.flatMap Extra.bytes).length) := by omega
      rw [hend] at hwalk
      rw [walkLocal, if_pos (by omega), readLE_of_holds htag (ZipDirectory.tag_lt x),
        readLE_of_holds hcount (by norm_num; omega)]
      simp only [bind_eq_bind, bind_some]
      rw [if_neg (by omega), foldl_cons, ← hwalk]
      have hpos : a + 4 + x.data.length = a + 2 + (2 + x.data.length) := by omega
      cases x with
      | zip64 usize' csize' localheaderoffset disknum =>
        obtain ⟨husize, hcsize, rfl, rfl⟩ := hallows
        obtain ⟨h1, h⟩ := holds_append.1 hdata
        obtain ⟨h2, -⟩ := holds_append.1 h
        have hnext : a + (2 + 2) + (fieldBytes 8 usize').length + (fieldBytes 8 csize').length =
            a + 2 + (2 + (Extra.zip64 usize' csize' none none).data.length) := by
          simp only [Extra.data, fieldBytes, append_nil, length_append]
          omega
        have htag : (Extra.zip64 usize' csize' none none).tag = 1 := rfl
        rw [if_pos htag, ZipDirectory.zip64Field_of_holds h1 husize (by norm_num)]
        simp only [bind_some]
        rw [ZipDirectory.zip64Field_of_holds h2 hcsize (by norm_num)]
        simp only [bind_some]
        rw [hnext]
        rfl
      | _ =>
        rw [if_neg hallows, hpos]
        rfl

/-- The sizes of a local header, from its extra fields where they are needed. -/
theorem LocalHeader.WellFormed.sizes {h : LocalHeader} (hwf : h.WellFormed) {raw : List QByte} {a : ℕ}
    (hholds : Holds raw a h.extra) :
    localSizes raw a h.extra.length h.usize.toNat h.csize.toNat = some h.sizes := by
  unfold LocalHeader.sizes localSizes
  by_cases hzip64 : h.IsZip64
  · have hbuf : Holds ((raw.drop a).take 65536) 0 h.extra := by
      have hlt := hwf.extra_lt
      rw [Holds, drop_zero]
      exact List.prefix_take_iff.2 ⟨hholds, by omega⟩
    have hwalk := walkLocal_of_holds (hwf.extras hzip64) hbuf hwf.extra_lt le_rfl
    rw [Nat.zero_add] at hwalk
    have hone : h.usize.toNat = 0xffffffff ∨ h.csize.toNat = 0xffffffff := hzip64
    rw [if_pos hzip64, if_pos hone]
    exact hwalk
  · have hnone : ¬ (h.usize.toNat = 0xffffffff ∨ h.csize.toNat = 0xffffffff) := hzip64
    rw [if_neg hzip64, if_neg hnone]
    rfl

/-- The local header of a well-formed member, followed by data that the archive has. -/
theorem validateLocalHeader_of_holds {h : LocalHeader} (hwf : h.WellFormed) {raw : List QByte}
    {zfile : ZPackFile} (hholds : Holds raw zfile.localpos.toNat h.bytes)
    (hdescribed : h.gpflags &&& (1 <<< 3) = 0 → h.crc32.toNat = zfile.crc ∧ h.sizes.1 = zfile.filelen)
    (hraw : zfile.localpos.toNat + h.bytes.length + h.sizes.2 ≤ raw.length)
    (hknown : knownMethod h.cmethod.toNat (zfile.flags &&& zflCompressiontype)) :
    validateLocalHeader raw zfile =
      some (some (zfile.localpos.toNat + h.bytes.length, h.sizes.2)) := by
  obtain ⟨hsig, hrest⟩ := holds_append.1 hholds
  obtain ⟨hfields, hrest⟩ := holds_append.1 hrest
  obtain ⟨-, hextra⟩ := holds_append.1 hrest
  have hlen : (h.fields.flatMap fun f => leBytes f.1 f.2).length = 26 := by
    simp [LocalHeader.fields]
  have hbytes : h.bytes.length = 30 + h.fname.length + h.extra.length := by
    simp only [LocalHeader.bytes, length_append, hlen, length_cons, length_nil]
    omega
  simp only [length_cons, length_nil, hlen] at hfields hextra
  have hfname_lt := hwf.fname_lt
  have hextra_lt := hwf.extra_lt
  obtain ⟨h4, hfields⟩ := readLE_field hfields h.versionNeeded.isLt
  obtain ⟨h6, hfields⟩ := readLE_field hfields h.gpflags.isLt
  obtain ⟨h8, hfields⟩ := readLE_field hfields h.cmethod.isLt
  obtain ⟨h10, hfields⟩ := readLE_field hfields h.lastmodfiletime.isLt
  obtain ⟨h12, hfields⟩ := readLE_field hfields h.lastmodfiledate.isLt
  obtain ⟨h14, hfields⟩ := readLE_field hfields h.crc32.isLt
  obtain ⟨h18, hfields⟩ := readLE_field hfields h.csize.isLt
  obtain ⟨h22, hfields⟩ := readLE_field hfields h.usize.isLt
  obtain ⟨h26, hfields⟩ := readLE_field hfields (by simpa using hfname_lt)
  obtain ⟨h28, -⟩ := readLE_field hfields (by simpa using hextra_lt)
  have hsizes := hwf.sizes hextra
  simp only [Nat.add_assoc, Nat.reduceAdd] at h4 h6 h8 h10 h12 h14 h18 h22 h26 h28 hsizes
  simp only [validateLocalHeader, ZipDirectory.signature_of_holds hsig, h4, h6, h8, h10, h12, h14, h18, h22, h26, h28,
    Nat.add_assoc, bind_eq_bind, bind_some, BitVec.ofNat_toNat, BitVec.setWidth_eq]
  rw [if_neg (by decide), hsizes]
  simp only [bind_some]
  rw [hbytes, Nat.add_assoc 30] at hraw
  rw [if_neg, if_neg (by omega), if_pos hknown, hbytes, Nat.add_assoc 30]
  rintro ⟨hbit, hne⟩
  obtain ⟨hcrc, husize⟩ := hdescribed hbit
  exact hne.elim (fun hne => hne hcrc) fun hne => hne husize

/-! ## Opening -/

section Open

variable {crctable : QByte → BitVec 32} {D : Decoder σ QByte}
  {Decodes : List QByte → List QByte → Prop} {password arch : List QByte} {m : Member} {raw : VfsFile}
  {f : VfsZip σ}

/-- A flag of the type of compression, where the type is known. -/
theorem flag_of_type {flags type flag : BitVec 32} (h : flags &&& zflCompressiontype = type)
    (hflag : zflCompressiontype &&& flag = flag) : flags &&& flag = type &&& flag := by
  rw [← hflag, ← BitVec.and_assoc, h, hflag]

theorem Member.Agrees.sizes (h : m.Agrees crctable password Decodes arch) :
    m.header.sizes.2 = 0 ∨ m.header.sizes.2 = (m.payload crctable password).length := by
  by_cases hbit : m.header.gpflags &&& (1 <<< 3) = 0
  · exact .inr (congrArg Prod.snd (h.described hbit).2)
  · exact (h.undescribed hbit).imp (congrArg Prod.snd) (congrArg Prod.snd)

/-- The local header of a member is found good. -/
theorem Member.Agrees.validate (h : m.Agrees crctable password Decodes arch) :
    validateLocalHeader arch m.zfile =
      some (some (m.zfile.localpos.toNat + m.header.bytes.length, m.header.sizes.2)) := by
  have hne : m.header.bytes ++ m.payload crctable password ≠ [] := cons_ne_nil _ _
  have hle := h.holds.le_length hne
  rw [length_append] at hle
  refine validateLocalHeader_of_holds h.wellFormed (holds_append.1 h.holds).1 (fun hbit => ?_) ?_ ?_
  · obtain ⟨hcrc, hsizes⟩ := h.described hbit
    exact ⟨by rw [hcrc, h.crc], by rw [hsizes, h.filelen]; rfl⟩
  · rcases h.sizes with hsize | hsize <;> omega
  · have hkept := h.kept
    unfold Member.Kept at hkept
    cases hm : m.method with
    | stored =>
      rw [hm] at hkept
      simp [knownMethod, hkept.1, hkept.2]
    | deflated d =>
      rw [hm] at hkept
      obtain ⟨-, hcmethod, htype, -⟩ := hkept
      simp [knownMethod, hcmethod, htype]
    | encrypted noise d =>
      rw [hm] at hkept
      obtain ⟨-, hcmethod, htype, -⟩ := hkept
      simp [knownMethod, hcmethod, htype]

/-- A member that is not compressed is opened at its start. -/
theorem Member.Agrees.open_stored (h : m.Agrees crctable password Decodes arch) (hm : m.method = .stored)
    (hraw : raw.data = arch) (hopen : openVfs crctable D raw password m.zfile = some (some f)) :
    Opened crctable D Decodes arch m.content f 0 := by
  have hkept := h.kept
  have hholds := (holds_append.1 h.holds).2
  unfold Member.Kept at hkept
  unfold Member.payload at hholds
  rw [hm] at hkept hholds
  have hcorrupt := flag_of_type hkept.2 (show zflCompressiontype &&& zflCorrupt = _ by decide)
  have hdeflated := flag_of_type hkept.2 (show zflCompressiontype &&& zflDeflated = _ by decide)
  rw [openVfs, if_neg (by rw [hcorrupt]; decide), hraw, h.validate] at hopen
  simp only [bind_eq_bind, bind_some] at hopen
  rw [if_neg (by rw [hdeflated]; decide), h.filelen] at hopen
  cases hopen
  exact .stored hholds (Nat.zero_le _)

/-- A compressed member is opened with what `FSZIP_Deflate_Init` gives. -/
theorem Member.Agrees.open_compressed (h : m.Agrees crctable password Decodes arch)
    (htype : m.zfile.flags &&& zflCompressiontype = ZipDirectory.zflDeflated) (hraw : raw.data = arch)
    (hopen : openVfs crctable D raw password m.zfile = some (some f)) :
    ∃ st, deflateInit crctable D raw (m.zfile.localpos.toNat + m.header.bytes.length) m.header.sizes.2
        m.content.length
        (if m.zfile.flags &&& ZipDirectory.zflWeakencrypt ≠ 0 then some password else none)
        m.crc.toNat = some (some st) ∧
      f = ⟨none, some st, 0, m.content.length, m.zfile.localpos.toNat + m.header.bytes.length⟩ := by
  have hcorrupt := flag_of_type htype (show zflCompressiontype &&& zflCorrupt = _ by decide)
  have hdeflated := flag_of_type htype (show zflCompressiontype &&& zflDeflated = _ by decide)
  rw [openVfs, if_neg (by rw [hcorrupt]; decide), hraw, h.validate] at hopen
  simp only [bind_eq_bind, bind_some] at hopen
  rw [if_pos (by rw [hdeflated]; decide), h.filelen, h.crc] at hopen
  obtain ⟨st, hinit, hst⟩ := bind_eq_some_iff.1 hopen
  cases st with
  | none => cases hst
  | some st =>
    cases hst
    exact ⟨st, hinit, rfl⟩

/-- The state that plain compressed data is read with. -/
theorem plainState_reading {d c : List QByte} {start : ℕ} (hholds : Holds arch start d) :
    Reading crctable D arch d c [] [] (plainState D start d.length c.length) :=
  ⟨⟨rfl, rfl, hholds⟩, ⟨rfl, Nat.zero_le _, fun h => absurd h Bool.false_ne_true⟩, nil_prefix,
    .live .init nil_prefix nil_prefix, Nat.zero_le _⟩

theorem plainState_starving (D : Decoder σ QByte) (start usize : ℕ) :
    Starving D (plainState D start 0 usize) :=
  ⟨rfl, rfl, rfl, le_rfl, .init⟩

/-- The state that encrypted data is read with, behind its header. -/
theorem deflateInit_reading {d c header : List QByte} {start crc : ℕ} {st : DecompressState σ}
    (hheader : header.length = 12)
    (hholds : Holds arch start
      (encryptBlock crctable (passwordKeys crctable password) (header ++ d)).1) (hraw : raw.data = arch)
    (hinit : deflateInit crctable D raw start (header ++ d).length c.length (some password) crc =
      some (some st)) : Reading crctable D arch d c [] [] st ∧ st.readoffset = 0 := by
  rw [encryptBlock_append] at hholds
  obtain ⟨hentropy, hdata⟩ := holds_append.1 hholds
  rw [length_encryptBlock, hheader] at hdata
  have hread : ((raw.seek start).read 12).1 = (encryptBlock crctable (passwordKeys crctable password) header).1 := by
    have hlen : (encryptBlock crctable (passwordKeys crctable password) header).1.length = 12 := by
      rw [length_encryptBlock, hheader]
    have hpiece := hentropy.drop_take (u := 0) (n := 12) (by omega)
    rw [← hraw] at hpiece
    rw [drop_zero, take_of_length_le hlen.le] at hpiece
    exact hpiece
  have hnot : ¬ (header ++ d).length < 12 := by
    rw [length_append]
    omega
  have hsub : (header ++ d).length - 12 = d.length := by
    rw [length_append]
    omega
  simp only [deflateInit, if_neg hnot, hread, setupCrytoKeys, decryptBlock_encryptBlock, hsub] at hinit
  cases hbyte : header[11]? with
  | none =>
    rw [hbyte] at hinit
    cases hinit
  | some b =>
    rw [hbyte] at hinit
    simp only [map_some] at hinit
    split at hinit
    · cases hinit
    · cases hinit
      exact ⟨⟨⟨rfl, rfl, hdata⟩, ⟨rfl, Nat.zero_le _, fun _ => rfl⟩, nil_prefix,
        .live .init nil_prefix nil_prefix, Nat.zero_le _⟩, rfl⟩

/-- A compressed member whose size is known is read from its start, and one whose size is taken to be
zero starves. -/
theorem Member.Agrees.open_cases (h : m.Agrees crctable password Decodes arch) (hm : m.method ≠ .stored)
    (hraw : raw.data = arch) (hopen : openVfs crctable D raw password m.zfile = some (some f)) :
    (m.header.sizes.2 = (m.payload crctable password).length →
      Opened crctable D Decodes arch m.content f 0) ∧
    (m.header.sizes.2 = 0 → ∃ st startpos, Starving D st ∧
      f = ⟨none, some st, 0, m.content.length, startpos⟩) := by
  have hkept := h.kept
  have hholds := (holds_append.1 h.holds).2
  unfold Member.Kept at hkept
  unfold Member.payload at hholds ⊢
  cases hmethod : m.method with
  | stored => exact absurd hmethod hm
  | deflated d =>
    rw [hmethod] at hkept hholds
    obtain ⟨hdec, -, htype, hflag⟩ := hkept
    obtain ⟨st, hinit, rfl⟩ := h.open_compressed htype hraw hopen
    rw [if_neg (not_not.2 hflag)] at hinit
    refine ⟨fun hsize => ?_, fun hsize => ?_⟩
    · rw [hsize] at hinit
      cases hinit
      exact .reading hdec (plainState_reading hholds) rfl
    · rw [hsize] at hinit
      cases hinit
      exact ⟨_, _, plainState_starving D _ _, rfl⟩
  | encrypted noise d =>
    rw [hmethod] at hkept hholds
    obtain ⟨hdec, -, htype, hflag, hnoise⟩ := hkept
    obtain ⟨st, hinit, rfl⟩ := h.open_compressed htype hraw hopen
    rw [if_pos hflag] at hinit
    have hheader : (m.cryptheader noise).length = 12 := by
      rw [Member.cryptheader, length_append, hnoise]
      rfl
    refine ⟨fun hsize => ?_, fun hsize => ?_⟩
    · rw [hsize, length_encryptBlock] at hinit
      obtain ⟨hreading, hoffset⟩ := deflateInit_reading hheader hholds hraw hinit
      exact .reading hdec hreading (by rw [hoffset]; rfl)
    · rw [hsize] at hinit
      cases hinit
      exact ⟨_, _, plainState_starving D _ _, rfl⟩

end Open

/-- A member with the letter `a`, deflated, with or without a data descriptor. -/
def letter (descriptor : Bool) : Member where
  content := [0x61]
  crc := 0xe8b7be43
  method := .deflated [0x4b, 0x04, 0x00]
  header :=
    { versionNeeded := 20
      gpflags := if descriptor then 8 else 0
      cmethod := 8
      lastmodfiletime := 0
      lastmodfiledate := 0
      crc32 := if descriptor then 0 else 0xe8b7be43
      csize := if descriptor then 0 else 3
      usize := if descriptor then 0 else 1
      fname := [0x61]
      extras := [] }
  zfile := { ZPackFile.empty with
    filelen := 1
    crc := 0xe8b7be43
    flags := ZipDirectory.zflDeflated }

/-- The archive of that one member, and what it is opened as. -/
def letterArchive (descriptor : Bool) : List QByte :=
  (letter descriptor).header.bytes ++ [0x4b, 0x04, 0x00]

/-- The format of that one stream. -/
def LetterFormat (d c : List QByte) : Prop := d = [0x4b, 0x04, 0x00] ∧ c = [0x61]

/-- The decoder of that one stream. -/
def letterDecoder : Decoder ℕ QByte := StreamDecoder.single [0x4b, 0x04, 0x00] [0x61]

theorem letterDecoder_correct : Correct letterDecoder LetterFormat :=
  single_correct (by decide) (by decide)

theorem letterDecoder_drains : Drains letterDecoder LetterFormat bufSize :=
  single_drains (by decide) bufSize

theorem letter_agrees (descriptor : Bool) (crctable : QByte → BitVec 32) (password : List QByte) :
    (letter descriptor).Agrees crctable password LetterFormat (letterArchive descriptor) := by
  cases descriptor with
  | false =>
    exact ⟨⟨by decide, by decide, fun h => absurd h (by decide)⟩,
      ⟨⟨rfl, rfl⟩, rfl, by decide, by decide⟩, prefix_rfl, rfl, rfl, fun _ => ⟨rfl, rfl⟩,
      fun h => absurd (by decide) h⟩
  | true =>
    exact ⟨⟨by decide, by decide, fun h => absurd h (by decide)⟩,
      ⟨⟨rfl, rfl⟩, rfl, by decide, by decide⟩, prefix_rfl, rfl, rfl,
      fun h => absurd h (by decide), fun _ => .inl rfl⟩

/-- What that member is opened as. -/
def letterFile (csize : ℕ) : VfsZip ℕ := ⟨none, some (plainState letterDecoder 31 csize 1), 0, 1, 31⟩

end ZipMember

end FteQuake
