import FteQuake.Common.Sizebuf
import FteQuake.Lib.ByteReader
import FteQuake.Lib.Memory

/-!
# The central directory of a zip file

`FSZIP_ReadCentralEntry` and `FSZIP_EnumerateCentralDirectory` of `fs_zip.c`, on the bytes of the
directory. A read outside of them and a write outside of the table of files are `undef`.

`CentralEntry` is an entry as the format has it, with its bytes; `Complete` says what a directory of
such entries should come to, and `Safe` what is asked of every directory. The loop over the entries
counts with the variable that the copy of a UTF-8 name counts with as well. `enumerate_keeps` says what
holds when the two agree.
-/

namespace FteQuake

open ByteReader List Option Mem Nat

namespace ZipDirectory

/-- `MAX_QPATH`, the size of a name. -/
def maxQpath : ℕ := 128

/-! ## Entries -/

/-- `ZFL_DEFLATED`. -/
def zflDeflated : BitVec 32 := 1 <<< 0

/-- `ZFL_BZIP2`. -/
def zflBzip2 : BitVec 32 := 1 <<< 1

/-- `ZFL_STORED`. -/
def zflStored : BitVec 32 := 1 <<< 2

/-- `ZFL_SYMLINK`. -/
def zflSymlink : BitVec 32 := 1 <<< 3

/-- `ZFL_CORRUPT`. -/
def zflCorrupt : BitVec 32 := 1 <<< 4

/-- `ZFL_WEAKENCRYPT`. -/
def zflWeakencrypt : BitVec 32 := 1 <<< 5

/-- `ZFL_DEFLATE64D`. -/
def zflDeflate64d : BitVec 32 := 1 <<< 6

/-- `ZFL_LZMA`. -/
def zflLzma : BitVec 32 := 1 <<< 7

/-- `struct zipcentralentry`, with `fname` as an offset into the directory. -/
structure ZipCentralEntry where
  fname : ℕ
  fnameLen : ℕ
  cesize : ℕ
  flags : BitVec 32
  mtime : BitVec 64
  versionMadeby : BitVec 16
  gflags : BitVec 16
  cmethod : ℕ
  crc32 : ℕ
  csize : ℕ
  usize : ℕ
  disknum : ℕ
  eattributes : BitVec 32
  localheaderoffset : ℕ
  deriving DecidableEq, Repr

/-- The flags of an entry from the fields of the format. -/
def entryFlags (versionMadeby gflags : BitVec 16) (cmethod : ℕ) (eattributes : BitVec 32) :
    BitVec 32 :=
  let madeby := versionMadeby >>> 8
  let unixattr := eattributes >>> 16
  let symlink := if (madeby = 2 ∨ madeby = 3 ∨ madeby = 16) ∧
    (unixattr &&& 0xf000 = 0xa000 ∨ unixattr &&& 0xa000 = 0xa000) then zflSymlink else 0
  let encrypted := if gflags &&& (1 <<< 0) ≠ 0 then zflWeakencrypt else 0
  let method :=
    if gflags &&& (1 <<< 5) ≠ 0 then zflCorrupt
    else if gflags &&& (1 <<< 6) ≠ 0 then zflCorrupt
    else if gflags &&& (1 <<< 13) ≠ 0 then zflCorrupt
    else if cmethod = 0 then zflStored
    else if cmethod = 8 then zflDeflated
    else if cmethod = 9 then zflDeflate64d
    else if cmethod = 12 then zflBzip2
    else if cmethod = 14 then zflLzma
    else zflCorrupt
  let flags := symlink ||| encrypted ||| method
  if flags &&& zflWeakencrypt ≠ 0 ∧ flags &&& zflDeflated = 0 then flags ||| zflCorrupt else flags

/-- The bytes at an offset, compared one after the other. -/
def signature (data : List QByte) (ofs : ℕ) : List QByte → Option Bool
  | [] => some true
  | c :: cs => do
    let b ← data[ofs]?
    if b ≠ c then some false else signature data (ofs + 1) cs

/-- A field of a zip64 chunk: it is there when the field of the entry is all ones. -/
def zip64Field (data : List QByte) (extra value ones k : ℕ) : Option (ℕ × ℕ) :=
  if value = ones then do
    let v ← readLE data extra k
    some (extra + k, v)
  else some (extra, value)

/-- The switch over the tag of an extra chunk, `extra` being behind its header. -/
def extraChunk (data : List QByte) (extra tag len : ℕ) (e : ZipCentralEntry) :
    Option (ℕ × ZipCentralEntry) :=
  if tag = 1 then do
    let (extra, usize) ← zip64Field data extra e.usize 0xffffffff 8
    let (extra, csize) ← zip64Field data extra e.csize 0xffffffff 8
    let (extra, localheaderoffset) ← zip64Field data extra e.localheaderoffset 0xffffffff 8
    let (extra, disknum) ← zip64Field data extra e.disknum 0xffff 4
    some (extra, { e with
      usize := usize
      csize := csize
      localheaderoffset := localheaderoffset
      disknum := disknum })
  else if tag = 0x000a then
    if len < 32 then some (extra + len, e)
    else do
      let subtag ← readLE data (extra + 4) 2
      if subtag ≠ 1 then some (extra + len, e)
      else
        let size ← readLE data (extra + 6) 2
        if size ≠ 8 * 3 then some (extra + len, e)
        else
          let time ← readLE data (extra + 8) 8
          some (extra + len, { e with mtime := BitVec.ofNat 64 (time / 10000000) - 11644473600 })
  else if tag = 0x5455 then do
    let bits ← data[extra]?
    if bits &&& 1 ≠ 0 then
      let time ← readLE data (extra + 1) 4
      some (extra + len, { e with mtime := BitVec.ofNat 64 time })
    else some (extra + len, e)
  else if tag = 0x7075 then do
    let version ← data[extra]?
    if version = 1 then
      some (extra + len, { e with
        fname := extra + 5
        fnameLen := (len + 2 ^ 16 - 5) % 2 ^ 16
        gflags := e.gflags ||| (1 <<< 11) })
    else some (extra, e)
  else some (extra + len, e)

/-- The loop over the extra chunks. A round moves `extra` by four bytes at least, so that `fuel` rounds
are enough for as many bytes. -/
def walkExtra (data : List QByte) (extraend : ℕ) : ℕ → ℕ → ZipCentralEntry → Option ZipCentralEntry
  | 0, _, e => some e
  | fuel + 1, extra, e =>
    if extra + 4 < extraend then do
      let tag ← readLE data extra 2
      let len ← readLE data (extra + 2) 2
      if extraend < extra + len then some e
      else
        let (extra, e) ← extraChunk data (extra + 4) tag len e
        walkExtra data extraend fuel extra e
    else some e

/-- `FSZIP_ReadCentralEntry` at an offset; `mktime` is called with the time and the date of the entry. -/
def readCentralEntry (mktime : ℕ → ℕ → BitVec 64) (data : List QByte) (ofs : ℕ) :
    Option (Option ZipCentralEntry) := do
  let signed ← signature data ofs [0x50, 0x4b, 1, 2]
  if ¬ signed then some none
  else
    let versionMadeby ← readLE data (ofs + 4) 2
    let _versionNeeded ← readLE data (ofs + 6) 2
    let gflags ← readLE data (ofs + 8) 2
    let cmethod ← readLE data (ofs + 10) 2
    let lastmodfiletime ← readLE data (ofs + 12) 2
    let lastmodfiledate ← readLE data (ofs + 14) 2
    let crc32 ← readLE data (ofs + 16) 4
    let csize ← readLE data (ofs + 20) 4
    let usize ← readLE data (ofs + 24) 4
    let fnameLen ← readLE data (ofs + 28) 2
    let extraLen ← readLE data (ofs + 30) 2
    let commentLen ← readLE data (ofs + 32) 2
    let disknum ← readLE data (ofs + 34) 2
    let _iattributes ← readLE data (ofs + 36) 2
    let eattributes ← readLE data (ofs + 38) 4
    let localheaderoffset ← readLE data (ofs + 42) 4
    let e : ZipCentralEntry :=
      { fname := ofs + 46
        fnameLen := fnameLen
        cesize := 46 + fnameLen
        flags := 0
        mtime := mktime lastmodfiletime lastmodfiledate
        versionMadeby := BitVec.ofNat 16 versionMadeby
        gflags := BitVec.ofNat 16 gflags
        cmethod := cmethod
        crc32 := crc32
        csize := csize
        usize := usize
        disknum := disknum
        eattributes := BitVec.ofNat 32 eattributes
        localheaderoffset := localheaderoffset }
    let extra := ofs + e.cesize
    let e ← walkExtra data (extra + extraLen) extraLen extra e
    some (some { e with
      cesize := e.cesize + extraLen + commentLen
      flags := entryFlags e.versionMadeby e.gflags e.cmethod e.eattributes })

/-! ## Names -/

/-- `ibmtounicode`. -/
def ibmtounicode : List ℕ :=
  [0x0000, 0x263A, 0x263B, 0x2665, 0x2666, 0x2663, 0x2660, 0x2022,
    0x25D8, 0x25CB, 0x25D9, 0x2642, 0x2640, 0x266A, 0x266B, 0x263C,
    0x25BA, 0x25C4, 0x2195, 0x203C, 0x00B6, 0x00A7, 0x25AC, 0x21A8,
    0x2191, 0x2193, 0x2192, 0x2190, 0x221F, 0x2194, 0x25B2, 0x25BC] ++
  (List.range' 0x20 60) ++ [0x2F] ++ (List.range' 0x5D 34) ++
  [0x2302,
    0x00C7, 0x00FC, 0x00E9, 0x00E2, 0x00E4, 0x00E0, 0x00E5, 0x00E7,
    0x00EA, 0x00EB, 0x00E8, 0x00EF, 0x00EE, 0x00EC, 0x00C4, 0x00C5,
    0x00C9, 0x00E6, 0x00C6, 0x00F4, 0x00F6, 0x00F2, 0x00FB, 0x00F9,
    0x00FF, 0x00D6, 0x00DC, 0x00A2, 0x00A3, 0x00A5, 0x20A7, 0x0192,
    0x00E1, 0x00ED, 0x00F3, 0x00FA, 0x00F1, 0x00D1, 0x00AA, 0x00BA,
    0x00BF, 0x2310, 0x00AC, 0x00BD, 0x00BC, 0x00A1, 0x00AB, 0x00BB,
    0x2591, 0x2592, 0x2593, 0x2502, 0x2524, 0x2561, 0x2562, 0x2556,
    0x2555, 0x2563, 0x2551, 0x2557, 0x255D, 0x255C, 0x255B, 0x2510,
    0x2514, 0x2534, 0x252C, 0x251C, 0x2500, 0x253C, 0x255E, 0x255F,
    0x255A, 0x2554, 0x2569, 0x2566, 0x2560, 0x2550, 0x256C, 0x2567,
    0x2568, 0x2564, 0x2565, 0x2559, 0x2558, 0x2552, 0x2553, 0x256B,
    0x256A, 0x2518, 0x250C, 0x2588, 0x2584, 0x258C, 0x2590, 0x2580,
    0x03B1, 0x00DF, 0x0393, 0x03C0, 0x03A3, 0x03C3, 0x00B5, 0x03C4,
    0x03A6, 0x0398, 0x03A9, 0x03B4, 0x221E, 0x03C6, 0x03B5, 0x2229,
    0x2261, 0x00B1, 0x2265, 0x2264, 0x2320, 0x2321, 0x00F7, 0x2248,
    0x00B0, 0x2219, 0x00B7, 0x221A, 0x207F, 0x00B2, 0x25A0, 0x00A0]

/-- The bytes that `utf8_encode` writes for a code below `0x10000`, room permitting. -/
def utf8Encode (unicode : ℕ) : List QByte :=
  if unicode = 0 ∨ 0x80 ≤ unicode ∧ unicode < 0x800 then
    [BitVec.ofNat 8 (0xc0 + unicode / 0x40), BitVec.ofNat 8 (0x80 + unicode % 0x40)]
  else if unicode < 0x80 then [BitVec.ofNat 8 unicode]
  else
    [BitVec.ofNat 8 (0xe0 + unicode / 0x1000), BitVec.ofNat 8 (0x80 + unicode / 0x40 % 0x40),
      BitVec.ofNat 8 (0x80 + unicode % 0x40)]

/-- The bytes of a character of the legacy charset. -/
def legacyChar (c : QByte) : List QByte := utf8Encode (ibmtounicode.getD c.toNat 0)

/-- The bytes of a buffer of a given length, from an offset on. -/
def readBytes (data : List QByte) (ofs : ℕ) : ℕ → Option (List QByte)
  | 0 => some []
  | k + 1 => do
    let b ← data[ofs]?
    let bs ← readBytes data (ofs + 1) k
    some (b :: bs)

/-- `\\` to `/`. -/
def slash (c : QByte) : QByte := if c = 0x5c then 0x2f else c

/-- The copy of a UTF-8 name: the loop, and the `memcpy` after it. -/
def copyUtf8 (data : List QByte) (fname fnameLen : ℕ) (name : Mem QByte) : Option (Mem QByte) := do
  let bytes ← readBytes data fname fnameLen
  some (((name.blit 0 (bytes.map slash)).blit 0 bytes).store fnameLen 0)

/-- The copy of a legacy name, `nlen` bytes of which are written. -/
def copyLegacy (data : List QByte) : ℕ → ℕ → ℕ → Mem QByte → Option (Mem QByte)
  | _, 0, nlen, name => some (name.store nlen 0)
  | fname, left + 1, nlen, name => do
    let c ← data[fname]?
    if maxQpath - 1 - nlen < (legacyChar c).length then some (name.store nlen 0)
    else
      copyLegacy data (fname + 1) left (nlen + (legacyChar c).length) (name.blit nlen (legacyChar c))

/-- The string in a name. -/
def cstr (name : Mem QByte) : List QByte := (name.slice 0 maxQpath).takeWhile (· ≠ 0)

/-- `Q_tolower`. -/
def toLower (c : QByte) : QByte := if 0x41 ≤ c ∧ c ≤ 0x5a then c - 0x41 + 0x61 else c

/-- `Q_strlwr`. -/
def strlwr (name : Mem QByte) : Mem QByte := name.blit 0 ((cstr name).map toLower)

/-- The branches on the prefix; `none` is `continue`. -/
def applyPrefix (pre : List QByte) (name : Mem QByte) : Option (Mem QByte) :=
  let len := (cstr name).length
  if pre = [] then some name
  else if pre = [0x2e, 0x2e] then
    -- the loop stops behind the first slash, or at the end
    let c := min (((cstr name).takeWhile (· ≠ 0x2f)).length + 1) len
    some (name.blit 0 (name.slice c (len - c + 1)))
  else if pre.head? = some 0x2f then
    if pre.tail <+: cstr name then
      let prelen := if name pre.tail.length = 0x2f then pre.tail.length + 1 else pre.tail.length
      some (name.blit 0 (name.slice prelen (len - prelen + 1)))
    else none
  else if maxQpath < pre.length + 1 + len + 1 then some (name.store 0 0)
  else some (((name.blit (pre.length + 1) (name.slice 0 len)).store pre.length 0x2f).blit 0 pre)

/-! ## The directory -/

/-- `zpackfile_t`. -/
structure ZPackFile where
  name : Mem QByte
  disknum : ℕ
  localpos : BitVec 64
  filelen : ℕ
  mtime : BitVec 64
  crc : ℕ
  flags : BitVec 32

/-- A file of a table that was just allocated. -/
def ZPackFile.empty : ZPackFile := ⟨fun _ => 0, 0, 0, 0, 0, 0, 0⟩

/-- What `FSZIP_EnumerateCentralDirectory` leaves. `numfiles` is `none` where it is the difference of a
pointer into the table and a null pointer. -/
structure Result where
  success : Bool
  numfiles : Option ℕ
  files : ℕ → ZPackFile

/-- How the loop ends: not within the fuel, with an access outside of the directory or the table, or
with a result. -/
inductive Outcome
  | more
  | undef
  | done (r : Result)

/-- What follows the loop. When the entries do not come out, the table is freed and its pointer is set
to null before `numfiles` is computed from it. -/
def finish (numfiles i k : ℕ) (files : ℕ → ZPackFile) : Result :=
  if i = numfiles then ⟨true, some k, files⟩ else ⟨false, none, files⟩

/-- The copy of a name into a file, and the counter after it: a UTF-8 name is copied with the variable
that the loop over the entries counts with. -/
def copyName (data : List QByte) (e : ZipCentralEntry) (i : ℕ) (name : Mem QByte) :
    Option (Mem QByte × ℕ) :=
  if e.gflags &&& (1 <<< 11) ≠ 0 then do
    let fnameLen := min e.fnameLen (maxQpath - 1)
    let name ← copyUtf8 data e.fname fnameLen name
    some (name, fnameLen)
  else do
    let name ← copyLegacy data e.fname e.fnameLen 0 name
    some (name, i)

section Enumerate

variable (mktime : ℕ → ℕ → BitVec 64) (data : List QByte) (numfiles : ℕ) (pre : List QByte)
  (zipoffset : ℕ)

/-- The loop of `FSZIP_EnumerateCentralDirectory`, at most `fuel` times around; `f` is the file number
`k` of the table. -/
def enumerateFrom : ℕ → ℕ → ℕ → ℕ → (ℕ → ZPackFile) → Outcome
  | 0, _, _, _, _ => .more
  | fuel + 1, i, ofs, k, files =>
    if i < numfiles then
      match readCentralEntry mktime data ofs with
      | none => .undef
      | some none => .done (finish numfiles i k files)
      | some (some e) =>
        if data.length < ofs + e.cesize then .done (finish numfiles i k files)
        else if numfiles ≤ k then .undef
        else
          match copyName data e i (files k).name with
          | none => .undef
          | some (name, i) =>
            let f := { files k with disknum := e.disknum, crc := e.crc32, name := name }
            match applyPrefix pre name with
            | none => enumerateFrom fuel (i + 1) (ofs + e.cesize) k (Function.update files k f)
            | some name =>
              let name := strlwr name
              let f := { f with
                name := name
                filelen := if name 0 ≠ 0 then e.usize else 0
                localpos := BitVec.ofNat 64 (e.localheaderoffset + zipoffset)
                flags := e.flags
                mtime := e.mtime }
              enumerateFrom fuel (i + 1) (ofs + e.cesize) (k + 1) (Function.update files k f)
    else .done (finish numfiles i k files)

/-- `FSZIP_EnumerateCentralDirectory`, once the directory is read. -/
def enumerate (fuel : ℕ) : Outcome :=
  enumerateFrom mktime data numfiles pre zipoffset fuel 0 0 0 fun _ => .empty

end Enumerate

/-! ## What a directory stands for -/

/-- An extra field, as the format has it. -/
inductive Extra
  | zip64 (usize csize localheaderoffset : Option (BitVec 64)) (disknum : Option (BitVec 32))
  | ntfs (data : List QByte)
  | timestamp (data : List QByte)
  | unicodeName (crc : BitVec 32) (name : List QByte)
  | other (tag : BitVec 16) (data : List QByte)

/-- The bytes of a field that may be missing. -/
def fieldBytes {w : ℕ} (k : ℕ) : Option (BitVec w) → List QByte
  | none => []
  | some x => leBytes k x.toNat

/-- The value of a field that may be missing. -/
def fieldValue {w : ℕ} (value : ℕ) : Option (BitVec w) → ℕ
  | none => value
  | some x => x.toNat

namespace Extra

/-- The tag of an extra field. -/
def tag : Extra → ℕ
  | zip64 .. => 1
  | ntfs _ => 0x000a
  | timestamp _ => 0x5455
  | unicodeName .. => 0x7075
  | other tag _ => tag.toNat

/-- What lies behind the header of an extra field. -/
def data : Extra → List QByte
  | zip64 usize csize localheaderoffset disknum =>
    fieldBytes 8 usize ++ (fieldBytes 8 csize ++ (fieldBytes 8 localheaderoffset ++
      fieldBytes 4 disknum))
  | ntfs data => data
  | timestamp data => data
  | unicodeName crc name => 1 :: (leBytes 4 crc.toNat ++ name)
  | other _ data => data

/-- The bytes of an extra field. -/
def bytes (x : Extra) : List QByte := leBytes 2 x.tag ++ (leBytes 2 x.data.length ++ x.data)

end Extra

/-- What an entry says about its file. -/
structure View where
  usize : ℕ
  csize : ℕ
  localheaderoffset : ℕ
  disknum : ℕ
  gflags : BitVec 16
  name : List QByte

/-- What an extra field adds. -/
def View.apply (v : View) : Extra → View
  | .zip64 usize csize localheaderoffset disknum =>
    { v with
      usize := fieldValue v.usize usize
      csize := fieldValue v.csize csize
      localheaderoffset := fieldValue v.localheaderoffset localheaderoffset
      disknum := fieldValue v.disknum disknum }
  | .unicodeName _ name => { v with gflags := v.gflags ||| (1 <<< 11), name := name }
  | .ntfs _ | .timestamp _ | .other .. => v

/-- An extra field is well formed: zip64 has the fields that are all ones, and no others. -/
def View.Allows (v : View) : Extra → Prop
  | .zip64 usize csize localheaderoffset disknum =>
    (usize.isSome ↔ v.usize = 0xffffffff) ∧ (csize.isSome ↔ v.csize = 0xffffffff) ∧
    (localheaderoffset.isSome ↔ v.localheaderoffset = 0xffffffff) ∧
    (disknum.isSome ↔ v.disknum = 0xffff)
  | .ntfs _ => True
  | .timestamp data => ∃ bits rest, data = bits :: rest ∧ (bits &&& 1 ≠ 0 → 4 ≤ rest.length)
  | .unicodeName .. => True
  | .other tag _ => tag.toNat ∉ [1, 0x000a, 0x5455, 0x7075]

/-- Extra fields are well formed, one after the other. -/
def View.AllowsAll : View → List Extra → Prop
  | _, [] => True
  | v, x :: xs => v.Allows x ∧ (v.apply x).AllowsAll xs

/-- An entry of the central directory. -/
structure CentralEntry where
  versionMadeby : BitVec 16
  versionNeeded : BitVec 16
  gflags : BitVec 16
  cmethod : BitVec 16
  lastmodfiletime : BitVec 16
  lastmodfiledate : BitVec 16
  crc32 : BitVec 32
  csize : BitVec 32
  usize : BitVec 32
  disknum : BitVec 16
  iattributes : BitVec 16
  eattributes : BitVec 32
  localheaderoffset : BitVec 32
  fname : List QByte
  extras : List Extra
  comment : List QByte

namespace CentralEntry

variable (e : CentralEntry)

/-- The extra fields of an entry. -/
def extra : List QByte := e.extras.flatMap Extra.bytes

/-- The numbers of an entry, with their sizes. -/
def fields : List (ℕ × ℕ) :=
  [(2, e.versionMadeby.toNat), (2, e.versionNeeded.toNat), (2, e.gflags.toNat), (2, e.cmethod.toNat),
    (2, e.lastmodfiletime.toNat), (2, e.lastmodfiledate.toNat), (4, e.crc32.toNat),
    (4, e.csize.toNat), (4, e.usize.toNat), (2, e.fname.length), (2, e.extra.length),
    (2, e.comment.length), (2, e.disknum.toNat), (2, e.iattributes.toNat), (4, e.eattributes.toNat),
    (4, e.localheaderoffset.toNat)]

/-- The part of an entry that has a fixed size. -/
def header : List QByte := [0x50, 0x4b, 1, 2] ++ e.fields.flatMap fun f => leBytes f.1 f.2

/-- The bytes of an entry. -/
def bytes : List QByte := e.header ++ (e.fname ++ (e.extra ++ e.comment))

/-- What the header of an entry says. -/
def headerView : View :=
  ⟨e.usize.toNat, e.csize.toNat, e.localheaderoffset.toNat, e.disknum.toNat, e.gflags, e.fname⟩

/-- What an entry says. -/
def view : View := e.extras.foldl View.apply e.headerView

/-- A UTF-8 name has no null character, and the parts fit their lengths. -/
structure WellFormed : Prop where
  fname_lt : e.fname.length < 2 ^ 16
  extra_lt : e.extra.length < 2 ^ 16
  comment_lt : e.comment.length < 2 ^ 16
  extras : e.headerView.AllowsAll e.extras
  name_ne : e.view.gflags &&& (1 <<< 11) ≠ 0 → ∀ c ∈ e.view.name, c ≠ 0

end CentralEntry

/-- As many of the characters as fit. -/
def fitting : ℕ → List (List QByte) → List QByte
  | _, [] => []
  | room, c :: cs => if room < c.length then [] else c ++ fitting (room - c.length) cs

/-- The name that a view gives, with slashes, cut to what a file has room for. -/
def View.rawName (v : View) : List QByte :=
  if v.gflags &&& (1 <<< 11) ≠ 0 then (v.name.map slash).take (maxQpath - 1)
  else fitting (maxQpath - 1) (v.name.map legacyChar)

/-- A name under a prefix; `none` is a file that is left out. -/
def prefixRule (pre s : List QByte) : Option (List QByte) :=
  if pre = [] then some s
  else if pre = [0x2e, 0x2e] then some ((s.dropWhile (· ≠ 0x2f)).drop 1)
  else if pre.head? = some 0x2f then
    if pre.tail <+: s then
      some (if s[pre.tail.length]? = some 0x2f then s.drop (pre.tail.length + 1)
        else s.drop pre.tail.length)
    else none
  else if maxQpath < pre.length + 1 + s.length + 1 then some []
  else some (pre ++ 0x2f :: s)

/-- The name of the file of an entry. -/
def CentralEntry.expectedName (e : CentralEntry) (pre : List QByte) : Option (List QByte) :=
  (prefixRule pre e.view.rawName).map (List.map toLower)

/-- A file is that of an entry. -/
structure Matches (zipoffset : ℕ) (f : ZPackFile) (e : CentralEntry) (name : List QByte) : Prop where
  name : cstr f.name = name
  filelen : f.filelen = e.view.usize
  crc : f.crc = e.crc32.toNat
  flags : f.flags = entryFlags e.versionMadeby e.view.gflags e.cmethod.toNat e.eattributes
  localpos : f.localpos = BitVec.ofNat 64 (e.view.localheaderoffset + zipoffset)
  disknum : f.disknum = e.view.disknum

/-- The files that a directory of entries should come to. -/
def kept (es : List CentralEntry) (pre : List QByte) : List (CentralEntry × List QByte) :=
  es.filterMap fun e => (e.expectedName pre).map fun name => (e, name)

/-- A string without null characters. -/
structure CString where
  chars : List QByte
  ne_zero : ∀ c ∈ chars, c ≠ 0

section Properties

variable (mktime : ℕ → ℕ → BitVec 64) (data : List QByte) (numfiles : ℕ) (pre : CString)
  (zipoffset : ℕ)

/-- The accesses are inside of the directory and the table, and a failure leaves no files. -/
def Safe : Prop :=
  ∀ fuel, enumerate mktime data numfiles pre.chars zipoffset fuel ≠ .undef ∧
    ∀ r, enumerate mktime data numfiles pre.chars zipoffset fuel = .done r → r.success = false →
      r.numfiles = some 0

/-- The entries come out as files, in their order. -/
def Complete (es : List CentralEntry) : Prop :=
  ∃ fuel r, enumerate mktime data numfiles pre.chars zipoffset fuel = .done r ∧ r.success = true ∧
    r.numfiles = some (kept es pre.chars).length ∧
    ∀ j (h : j < (kept es pre.chars).length),
      Matches zipoffset (r.files j) (kept es pre.chars)[j].1 (kept es pre.chars)[j].2

/-- What is asked of a directory. -/
def Enumerates : Prop :=
  Safe mktime data numfiles pre zipoffset ∧
    ∀ es, (∀ e ∈ es, e.WellFormed) → data = es.flatMap CentralEntry.bytes → numfiles = es.length →
      Complete mktime data numfiles pre zipoffset es

/-- The entries from number `k` on are read inside the directory, and the counter of a UTF-8 name ends
at the number of its entry. -/
inductive Agrees : ℕ → ℕ → Prop
  | done (ofs : ℕ) : Agrees numfiles ofs
  | entry {k ofs : ℕ} {e : ZipCentralEntry} (hk : k < numfiles)
    (hread : readCentralEntry mktime data ofs = some (some e))
    (hsize : ofs + e.cesize ≤ data.length) (hname : (copyName data e k fun _ => 0).isSome)
    (hcount : e.gflags &&& (1 <<< 11) ≠ 0 → min e.fnameLen (maxQpath - 1) = k)
    (hslash : e.gflags &&& (1 <<< 11) ≠ 0 →
      0x5c ∉ (data.drop e.fname).take (min e.fnameLen (maxQpath - 1)))
    (hnext : Agrees (k + 1) (ofs + e.cesize)) : Agrees k ofs

/-- The condition on a directory: an entry whose name comes out empty has no contents, besides. -/
structure Fits : Prop where
  agrees : Agrees mktime data numfiles 0 0
  named : ∀ es : List CentralEntry, (∀ e ∈ es, e.WellFormed) → data = es.flatMap CentralEntry.bytes →
    ∀ e ∈ es, e.expectedName pre.chars = some [] → e.view.usize = 0

end Properties

/-! ## Strings in names -/

/-- The name is a string, of characters that are not null. -/
structure Named (name : Mem QByte) (s : List QByte) : Prop where
  ne_zero : ∀ c ∈ s, c ≠ 0
  lt : s.length < maxQpath
  slice : name.slice 0 (s.length + 1) = s ++ [0]

variable {name : Mem QByte} {s t : List QByte} {data : List QByte}

theorem Named.cstr (h : Named name s) : cstr name = s := by
  have hlt := h.lt
  obtain ⟨rest, hrest⟩ := Nat.exists_eq_add_of_lt hlt
  have hslice : name.slice 0 maxQpath = s ++ (0 :: name.slice (0 + (s.length + 1)) rest) := by
    rw [hrest, add_right_comm, slice_add, h.slice, append_assoc]
    rfl
  rw [ZipDirectory.cstr, hslice, takeWhile_append_of_pos (by simpa using h.ne_zero)]
  simp

theorem named_blit (hne : ∀ c ∈ s, c ≠ 0) (hlt : s.length < maxQpath) (name : Mem QByte) :
    Named (name.blit 0 (s ++ [0])) s where
  ne_zero := hne
  lt := hlt
  slice := by
    have h := slice_blit_self name 0 (s ++ [0])
    rwa [length_append] at h

theorem Named.slice_drop (h : Named name s) {c : ℕ} (hc : c ≤ s.length) :
    name.slice c (s.length - c + 1) = s.drop c ++ [0] := by
  have hdrop := drop_slice name 0 (s.length + 1) c
  rw [h.slice, drop_append_of_le_length hc, Nat.zero_add] at hdrop
  rw [hdrop]
  congr 1
  omega

theorem Named.slice_left (h : Named name s) : name.slice 0 s.length = s := by
  have htake := take_slice name 0 (s.length + 1) s.length (le_succ _)
  rw [h.slice, take_left] at htake
  exact htake.symm

theorem Named.apply_of_lt (h : Named name s) {i : ℕ} (hi : i < s.length) : name i = s[i] := by
  have hget := getElem_slice name 0 s.length i (by rwa [length_slice])
  rw [Nat.zero_add] at hget
  rw [← hget]
  simp only [h.slice_left]

theorem Named.apply_length (h : Named name s) : name s.length = 0 := by
  have hslice := h.slice
  rw [slice_add, h.slice_left, Nat.zero_add, slice_one] at hslice
  simpa using append_cancel_left hslice

theorem Named.zero_ne_iff (h : Named name s) : name 0 ≠ 0 ↔ s ≠ [] := by
  cases s with
  | nil => simpa using h.apply_length
  | cons c s =>
    have hc := h.apply_of_lt (zero_lt_succ s.length)
    rw [hc]
    simpa using h.ne_zero c (.head _)

/-- The rest of a string, moved to the front. -/
theorem Named.move (h : Named name s) {c : ℕ} (hc : c ≤ s.length) :
    Named (name.blit 0 (name.slice c (s.length - c + 1))) (s.drop c) := by
  rw [h.slice_drop hc]
  refine named_blit (fun x hx => h.ne_zero x (mem_of_mem_drop hx)) ?_ name
  have hlt := h.lt
  rw [length_drop]
  omega

theorem toLower_ne_zero : ∀ c : QByte, c ≠ 0 → toLower c ≠ 0 := by
  decide +kernel

theorem Named.strlwr (h : Named name s) : Named (strlwr name) (s.map toLower) := by
  rw [ZipDirectory.strlwr, h.cstr]
  refine ⟨?_, by simpa using h.lt, ?_⟩
  · intro c hc
    obtain ⟨d, hd, rfl⟩ := List.mem_map.1 hc
    exact toLower_ne_zero d (h.ne_zero d hd)
  · have hself := slice_blit_self name 0 (s.map toLower)
    have hafter := slice_blit_after name (s.map toLower) (p := 0) (q := s.length) (n := 1) (by simp)
    rw [length_map] at hself ⊢
    rw [slice_add, hself, Nat.zero_add, hafter, slice_one, h.apply_length]

/-- The name is null from an offset on. -/
def ZeroFrom (name : Mem QByte) (k : ℕ) : Prop := ∀ a, k ≤ a → name a = 0

/-- The slash and what comes before it, taken off. -/
theorem drop_takeWhile (s : List QByte) : (s.dropWhile (· ≠ 0x2f)).drop 1 =
    s.drop (min ((s.takeWhile (· ≠ 0x2f)).length + 1) s.length) := by
  have hsplit := takeWhile_append_dropWhile (p := (· ≠ 0x2f)) (l := s)
  have hlen := congrArg List.length hsplit
  rw [length_append] at hlen
  have hdrop : s.drop (s.takeWhile (· ≠ 0x2f)).length = s.dropWhile (· ≠ 0x2f) := by
    conv_lhs => rw [← hsplit]
    rw [drop_append, takeWhile_append_dropWhile]
    simp
  rw [← hdrop, drop_drop]
  by_cases hle : (s.takeWhile (· ≠ 0x2f)).length + 1 ≤ s.length
  · rw [min_eq_left hle]
  · rw [Nat.min_eq_right (by omega), drop_eq_nil_of_le (by omega), drop_length]

/-- The branches on the prefix do what the rule says. Text is put in front without a null character
behind the name, so that the name has to be null there. -/
theorem Named.applyPrefix (h : Named name s) {pre : List QByte} (hpre : ∀ c ∈ pre, c ≠ 0)
    (hzero : pre.head? ≠ some 0x2f → ZeroFrom name s.length) :
    Option.Rel Named (applyPrefix pre name) (prefixRule pre s) := by
  unfold prefixRule ZipDirectory.applyPrefix
  rw [h.cstr]
  dsimp only
  by_cases hnil : pre = []
  · rw [if_pos hnil, if_pos hnil]
    exact .some h
  rw [if_neg hnil, if_neg hnil]
  by_cases hdots : pre = [0x2e, 0x2e]
  · rw [if_pos hdots, if_pos hdots, drop_takeWhile]
    exact .some (h.move (min_le_right _ _))
  rw [if_neg hdots, if_neg hdots]
  by_cases hslash : pre.head? = some 0x2f
  · rw [if_pos hslash, if_pos hslash]
    by_cases hp : pre.tail <+: s
    · rw [if_pos hp, if_pos hp]
      have hle := hp.length_le
      by_cases hlt : pre.tail.length < s.length
      · rw [h.apply_of_lt hlt, List.getElem?_eq_getElem hlt]
        by_cases hc : s[pre.tail.length] = 0x2f
        · rw [if_pos hc, if_pos (congrArg some hc)]
          exact .some (h.move hlt)
        · rw [if_neg hc, if_neg fun he => hc (some.inj he)]
          exact .some (h.move hle)
      · obtain heq : pre.tail.length = s.length := by omega
        rw [heq, h.apply_length, List.getElem?_eq_none le_rfl, if_neg (by decide), if_neg (by simp)]
        exact .some (h.move le_rfl)
    · rw [if_neg hp, if_neg hp]
      exact .none
  rw [if_neg hslash, if_neg hslash]
  by_cases hroom : maxQpath < pre.length + 1 + s.length + 1
  · rw [if_pos hroom, if_pos hroom]
    refine .some ⟨fun c hc => absurd hc not_mem_nil, by decide, ?_⟩
    rw [length_nil, Nat.zero_add, slice_one, store_self]
    rfl
  · rw [if_neg hroom, if_neg hroom, h.slice_left]
    refine .some ⟨?_, ?_, ?_⟩
    · intro c hc
      rcases List.mem_append.1 hc with hc | hc
      · exact hpre c hc
      · rcases List.mem_cons.1 hc with rfl | hc
        · decide
        · exact h.ne_zero c hc
    · rw [length_append, length_cons]
      omega
    · have hlast : name (pre.length + 1 + s.length) = 0 := hzero hslash _ (by omega)
      have hcount : (pre ++ 0x2f :: s).length + 1 = pre.length + (1 + (s.length + 1)) := by
        rw [length_append, length_cons]
        omega
      rw [hcount, slice_add, slice_blit_self, Nat.zero_add, slice_blit_after _ _ (Nat.zero_add _).le,
        slice_add, slice_one, store_self, store_eq_blit, slice_blit_after _ [0x2f] (length_singleton
        ▸ le_rfl), slice_add, slice_blit_self, slice_one, blit_apply_ge _ _ le_rfl, hlast]
      simp

/-! ## Copies of names -/

variable {bs : List QByte} {v : View} {e : ZipCentralEntry} {a nlen : ℕ}

theorem readBytes_of_holds (h : Holds data a bs) :
    readBytes data a bs.length = some bs := by
  induction bs generalizing a with
  | nil => rfl
  | cons b bs ih => simp [readBytes, h.head, ih h.tail]

theorem Holds.take (h : Holds data a bs) (k : ℕ) :
    Holds data a (bs.take k) :=
  ( take_prefix k bs).trans h

theorem map_slash_of_not_mem (h : 0x5c ∉ bs) : bs.map slash = bs := by
  calc bs.map slash = bs.map id := map_congr_left fun c hc => if_neg (by rintro rfl; exact h hc)
    _ = bs := map_id bs

theorem Holds.take_drop (h : Holds data a bs) (k : ℕ) :
    (data.drop a).take (min bs.length k) = bs.take k := by
  obtain ⟨rest, h⟩ := h
  rw [← h, take_append_of_le_length (min_le_left _ _), min_comm, ← take_take, take_length]

/-- A UTF-8 name without a backslash. -/
theorem copyUtf8_of_holds (h : Holds data a bs) (hne : ∀ c ∈ bs, c ≠ 0)
    (hlt : bs.length < maxQpath) (name : Mem QByte) :
    ∃ name', copyUtf8 data a bs.length name = some name' ∧ Named name' bs ∧
      ((∀ a, name a = 0) → ZeroFrom name' bs.length) := by
  have hcopy : ((name.blit 0 (bs.map slash)).blit 0 bs).store bs.length 0 =
      (name.blit 0 (bs.map slash)).blit 0 (bs ++ [0]) := by
    rw [blit_append, store_eq_blit, Nat.zero_add]
  refine ⟨((name.blit 0 (bs.map slash)).blit 0 bs).store bs.length 0,
    by simp [copyUtf8, readBytes_of_holds h], ?_, fun hzero a ha => ?_⟩
  · rw [hcopy]
    exact named_blit hne hlt _
  · by_cases heq : a = bs.length
    · rw [heq, store_self]
    · rw [Mem.store, if_neg heq, blit_apply_ge _ _ (by omega),
        blit_apply_ge _ _ (by rw [length_map]; omega), hzero]

theorem all_ibmtounicode : (ibmtounicode.all fun unicode => (utf8Encode unicode).all (· != 0)) = true := by
  decide +kernel

theorem legacyChar_ne_zero (c : QByte) : 0 ∉ legacyChar c := by
  intro hzero
  rw [legacyChar, List.getD_eq_getElem?_getD] at hzero
  cases hc : ibmtounicode[c.toNat]? with
  | none =>
    rw [hc, getD_none] at hzero
    exact absurd hzero (by decide)
  | some unicode =>
    rw [hc, getD_some] at hzero
    have hall := List.all_eq_true.mp all_ibmtounicode unicode (List.mem_of_getElem? hc)
    exact absurd (List.all_eq_true.mp hall 0 hzero) (by decide)

/-- The end of a string, written behind its characters. -/
theorem named_store {w : List QByte} (hw : name.slice 0 nlen = w) (hne : ∀ c ∈ w, c ≠ 0)
    (hlt : nlen < maxQpath) : Named (name.store nlen 0) w ∧
      (ZeroFrom name nlen → ZeroFrom (name.store nlen 0) w.length) := by
  have hlen : w.length = nlen := by rw [← hw, length_slice]
  refine ⟨⟨hne, by omega, ?_⟩, fun hzero b hb => ?_⟩
  · rw [hlen, store_eq_blit, slice_add, slice_blit_before _ _ (Nat.zero_add _).le, hw, Nat.zero_add]
    exact congrArg (w ++ ·) (slice_blit_self name nlen [0])
  · by_cases heq : b = nlen
    · rw [heq, store_self]
    · rw [Mem.store, if_neg heq]
      exact hzero b (by omega)

/-- A legacy name, after the characters `w`. -/
theorem copyLegacy_of_holds {cs w : List QByte} (h : Holds data a cs)
    (hw : name.slice 0 nlen = w) (hne : ∀ c ∈ w, c ≠ 0) (hlt : nlen < maxQpath) :
    ∃ name', copyLegacy data a cs.length nlen name = some name' ∧
      Named name' (w ++ fitting (maxQpath - 1 - nlen) (cs.map legacyChar)) ∧
      (ZeroFrom name nlen →
        ZeroFrom name' (w ++ fitting (maxQpath - 1 - nlen) (cs.map legacyChar)).length) := by
  induction cs generalizing a nlen w name with
  | nil =>
    refine ⟨_, rfl, ?_⟩
    simpa [fitting] using named_store hw hne hlt
  | cons c cs ih =>
    by_cases hroom : maxQpath - 1 - nlen < (legacyChar c).length
    · refine ⟨name.store nlen 0, by simp [copyLegacy, h.head, hroom], ?_⟩
      simpa [fitting, hroom] using named_store hw hne hlt
    · have hslice : (name.blit nlen (legacyChar c)).slice 0 (nlen + (legacyChar c).length) = w ++ legacyChar c := by
        have happend := slice_blit_append name 0 nlen (legacyChar c)
        rwa [Nat.zero_add, hw] at happend
      have hne' : ∀ x ∈ w ++ legacyChar c, x ≠ 0 := by
        intro x hx
        rcases List.mem_append.1 hx with hx | hx
        · exact hne x hx
        · rintro rfl
          exact legacyChar_ne_zero c hx
      obtain ⟨name', hcopy, hnamed, hzero'⟩ := ih h.tail hslice hne' (by omega)
      have hfit : w ++ fitting (maxQpath - 1 - nlen) ((c :: cs).map legacyChar) =
          w ++ legacyChar c ++ fitting (maxQpath - 1 - (nlen + (legacyChar c).length)) (cs.map legacyChar) := by
        rw [map_cons, fitting, if_neg hroom, sub_add_eq, append_assoc]
      rw [hfit]
      refine ⟨name', ?_, hnamed, fun hzero => hzero' fun b hb => ?_⟩
      · simpa [copyLegacy, h.head, hroom] using hcopy
      · rw [blit_apply_ge _ _ hb]
        exact hzero b (by omega)

/-! ## The parse of an entry -/

theorem signature_of_holds {sig : List QByte} (h : Holds data a sig) :
    signature data a sig = some true := by
  induction sig generalizing a with
  | nil => rfl
  | cons c cs ih => simp [signature, h.head, ih h.tail]

/-- A field of a zip64 chunk that is there when it should be. -/
theorem zip64Field_of_holds {value ones k w : ℕ} {o : Option (BitVec w)}
    (h : Holds data a (fieldBytes k o)) (ho : o.isSome ↔ value = ones) (hw : 2 ^ w = 256 ^ k) :
    zip64Field data a value ones k = some (a + (fieldBytes k o).length, fieldValue value o) := by
  unfold zip64Field
  cases o with
  | none =>
    rw [if_neg fun hv => by simpa using ho.2 hv]
    rfl
  | some x =>
    have hread := readLE_of_holds h (hw ▸ x.isLt)
    rw [if_pos (ho.1 rfl), hread]
    simp [fieldBytes, fieldValue]

/-- The entry that was read says what the view says. -/
structure Shows (data : List QByte) (e : ZipCentralEntry) (v : View) : Prop where
  name : Holds data e.fname v.name
  fnameLen : e.fnameLen = v.name.length
  usize : e.usize = v.usize
  csize : e.csize = v.csize
  localheaderoffset : e.localheaderoffset = v.localheaderoffset
  disknum : e.disknum = v.disknum
  gflags : e.gflags = v.gflags

/-- The fields of an entry that the extra chunks leave. -/
structure SameHeader (e e' : ZipCentralEntry) : Prop where
  cesize : e'.cesize = e.cesize
  versionMadeby : e'.versionMadeby = e.versionMadeby
  cmethod : e'.cmethod = e.cmethod
  crc32 : e'.crc32 = e.crc32
  eattributes : e'.eattributes = e.eattributes

theorem SameHeader.trans {e₁ e₂ e₃ : ZipCentralEntry} (h : SameHeader e₁ e₂) (h' : SameHeader e₂ e₃) :
    SameHeader e₁ e₃ :=
  ⟨h'.cesize.trans h.cesize, h'.versionMadeby.trans h.versionMadeby, h'.cmethod.trans h.cmethod,
    h'.crc32.trans h.crc32, h'.eattributes.trans h.eattributes⟩

theorem SameHeader.refl (e : ZipCentralEntry) : SameHeader e e := ⟨rfl, rfl, rfl, rfl, rfl⟩

/-- One extra chunk. -/
theorem extraChunk_of_holds {x : Extra} (he : Shows data e v)
    (hx : v.Allows x) (h : Holds data a x.data) (hlen : x.data.length < 2 ^ 16) :
    ∃ e', extraChunk data a x.tag x.data.length e = some (a + x.data.length, e') ∧
      Shows data e' (v.apply x) ∧ SameHeader e e' := by
  cases x with
  | zip64 usize csize localheaderoffset disknum =>
    obtain ⟨h1, h⟩ := holds_append.1 h
    obtain ⟨h2, h⟩ := holds_append.1 h
    obtain ⟨h3, h4⟩ := holds_append.1 h
    obtain ⟨o1, o2, o3, o4⟩ := hx
    rw [← he.usize] at o1
    rw [← he.csize] at o2
    rw [← he.localheaderoffset] at o3
    rw [← he.disknum] at o4
    have hsum : a + (fieldBytes 8 usize).length + (fieldBytes 8 csize).length +
        (fieldBytes 8 localheaderoffset).length + (fieldBytes 4 disknum).length =
        a + (Extra.zip64 usize csize localheaderoffset disknum).data.length := by
      simp only [Extra.data, length_append]
      omega
    refine ⟨{ e with
      usize := fieldValue e.usize usize
      csize := fieldValue e.csize csize
      localheaderoffset := fieldValue e.localheaderoffset localheaderoffset
      disknum := fieldValue e.disknum disknum }, ?_, ?_, ⟨rfl, rfl, rfl, rfl, rfl⟩⟩
    · rw [← hsum]
      simp [extraChunk, Extra.tag, zip64Field_of_holds h1 o1 (by norm_num),
        zip64Field_of_holds h2 o2 (by norm_num), zip64Field_of_holds h3 o3 (by norm_num),
        zip64Field_of_holds h4 o4 (by norm_num)]
    · exact ⟨he.name, he.fnameLen, by simp [View.apply, he.usize], by simp [View.apply, he.csize],
        by simp [View.apply, he.localheaderoffset], by simp [View.apply, he.disknum], he.gflags⟩
  | ntfs bytes =>
    have hmtime : ∃ t, extraChunk data a 0x000a bytes.length e = some (a + bytes.length, { e with mtime := t }) := by
      by_cases hshort : bytes.length < 32
      · exact ⟨e.mtime, by simp [extraChunk, hshort]⟩
      · have hin := h.le_length (show bytes ≠ [] by rintro rfl; simp at hshort)
        simp only [Extra.data] at hin
        obtain ⟨subtag, h1⟩ : ∃ t, readLE data (a + 4) 2 = some t := readLE_isSome (by omega)
        obtain ⟨size, h2⟩ : ∃ t, readLE data (a + 6) 2 = some t := readLE_isSome (by omega)
        obtain ⟨time, h3⟩ : ∃ t, readLE data (a + 8) 8 = some t := readLE_isSome (by omega)
        by_cases hsub : subtag = 1
        · by_cases hsize : size = 8 * 3
          · exact ⟨_, by simp [extraChunk, hshort, h1, h2, h3, hsub, hsize]; rfl⟩
          · exact ⟨e.mtime, by simp [extraChunk, hshort, h1, h2, hsub, hsize]⟩
        · exact ⟨e.mtime, by simp [extraChunk, hshort, h1, hsub]⟩
    obtain ⟨t, ht⟩ := hmtime
    exact ⟨_, ht, ⟨he.name, he.fnameLen, he.usize, he.csize, he.localheaderoffset, he.disknum,
      he.gflags⟩, ⟨rfl, rfl, rfl, rfl, rfl⟩⟩
  | timestamp bytes =>
    obtain ⟨bits, rest, rfl, hrest⟩ := hx
    have hbits := h.head
    have hmtime : ∃ t, extraChunk data a 0x5455 (bits :: rest).length e =
        some (a + (bits :: rest).length, { e with mtime := t }) := by
      by_cases hb : bits &&& 1#8 = 0#8
      · exact ⟨e.mtime, by simp [extraChunk, hbits, hb]⟩
      · have hin := h.le_length (cons_ne_nil bits rest)
        simp only [Extra.data, length_cons] at hin
        have hfour := hrest hb
        obtain ⟨time, h1⟩ : ∃ t, readLE data (a + 1) 4 = some t := readLE_isSome (by omega)
        exact ⟨_, by simp [extraChunk, hbits, hb, h1]; rfl⟩
    obtain ⟨t, ht⟩ := hmtime
    exact ⟨_, ht, ⟨he.name, he.fnameLen, he.usize, he.csize, he.localheaderoffset, he.disknum,
      he.gflags⟩, ⟨rfl, rfl, rfl, rfl, rfl⟩⟩
  | unicodeName crc name =>
    have hversion := h.head
    have hname := (holds_append.1 h.tail).2
    rw [length_leBytes] at hname
    have hcount : (Extra.unicodeName crc name).data.length = name.length + 5 := by
      simp [Extra.data]
      omega
    rw [hcount] at hlen ⊢
    refine ⟨{ e with
      fname := a + 5
      fnameLen := name.length
      gflags := e.gflags ||| (1 <<< 11) }, ?_, ?_, ⟨rfl, rfl, rfl, rfl, rfl⟩⟩
    · have hsub : (name.length + 5 + 2 ^ 16 - 5) % 2 ^ 16 = name.length := by omega
      have htag : (Extra.unicodeName crc name).tag = 0x7075 := rfl
      rw [htag, extraChunk, if_neg (by decide), if_neg (by decide), if_neg (by decide), if_pos rfl,
        hversion, hsub]
      rfl
    · exact ⟨hname, rfl, he.usize, he.csize, he.localheaderoffset, he.disknum, by rw [he.gflags]; rfl⟩
  | other tag bytes =>
    have htag : extraChunk data a tag.toNat bytes.length e = some (a + bytes.length, e) := by
      simp only [View.Allows, mem_cons, not_or] at hx
      obtain ⟨h1, h2, h3, h4, -⟩ := hx
      rw [extraChunk, if_neg h1, if_neg h2, if_neg h3, if_neg h4]
    exact ⟨e, htag, he, .refl e⟩

@[simp] theorem length_bytes (x : Extra) : x.bytes.length = x.data.length + 4 := by
  rw [Extra.bytes, length_append, length_append, length_leBytes, length_leBytes]
  omega

theorem tag_lt (x : Extra) : x.tag < 256 ^ 2 := by
  cases x with
  | other tag data => exact tag.isLt
  | _ => simp [Extra.tag]

/-- An extra field with nothing behind its header says nothing. -/
theorem apply_of_data_nil {x : Extra} (h : x.data = []) : v.apply x = v := by
  cases x with
  | zip64 usize csize localheaderoffset disknum =>
    simp only [Extra.data, append_eq_nil_iff] at h
    obtain ⟨h1, h2, h3, h4⟩ := h
    have hnone : ∀ {w : ℕ} (k : ℕ) (o : Option (BitVec w)) (value : ℕ), fieldBytes (k + 1) o = [] →
        fieldValue value o = value := by
      intro w k o value ho
      cases o with
      | none => rfl
      | some x => exact absurd ho (cons_ne_nil _ _)
    rw [View.apply, hnone 7 usize v.usize h1, hnone 7 csize v.csize h2,
      hnone 7 localheaderoffset v.localheaderoffset h3, hnone 3 disknum v.disknum h4]
  | unicodeName crc name => exact absurd h (cons_ne_nil _ _)
  | _ => rfl

/-- The loop over the extra chunks. The last one is not looked at when nothing is behind its header. -/
theorem walkExtra_of_holds {fuel : ℕ} {xs : List Extra}
    (he : Shows data e v) (hx : v.AllowsAll xs) (h : Holds data a (xs.flatMap Extra.bytes))
    (hlen : (xs.flatMap Extra.bytes).length < 2 ^ 16) (hfuel : (xs.flatMap Extra.bytes).length ≤ fuel) :
    ∃ e', walkExtra data (a + (xs.flatMap Extra.bytes).length) fuel a e = some e' ∧
      Shows data e' (xs.foldl View.apply v) ∧ SameHeader e e' := by
  induction xs generalizing a fuel e v with
  | nil =>
    refine ⟨e, ?_, he, .refl e⟩
    cases fuel with
    | zero => rfl
    | succ fuel =>
      rw [walkExtra, if_neg]
      simp
  | cons x xs ih =>
    obtain ⟨hallows, hrest⟩ := hx
    rw [flatMap_cons, length_append, length_bytes] at hlen hfuel ⊢
    rw [flatMap_cons, Extra.bytes, append_assoc, append_assoc] at h
    obtain ⟨htag, h⟩ := holds_append.1 h
    obtain ⟨hcount, h⟩ := holds_append.1 h
    obtain ⟨hdata, hnext⟩ := holds_append.1 h
    rw [length_leBytes] at hcount hdata hnext
    rw [length_leBytes, add_assoc] at hdata hnext
    obtain ⟨fuel, rfl⟩ := Nat.exists_eq_add_of_lt (show 0 < fuel by omega)
    rw [Nat.zero_add] at hfuel ⊢
    by_cases hempty : x.data.length + (xs.flatMap Extra.bytes).length = 0
    · have hxs : xs = [] := by
        cases xs with
        | nil => rfl
        | cons y ys => simp at hempty
      have hxdata : x.data = [] := eq_nil_of_length_eq_zero (by omega)
      refine ⟨e, ?_, ?_, .refl e⟩
      · rw [walkExtra, if_neg (by omega)]
      · rw [hxs, foldl_cons, foldl_nil, apply_of_data_nil hxdata]
        exact he
    · obtain ⟨e₁, hchunk, hshows, hsame⟩ := extraChunk_of_holds he hallows hdata (by omega)
      obtain ⟨e₂, hwalk, hshows', hsame'⟩ := ih hshows hrest hnext (by omega)
        (show (xs.flatMap Extra.bytes).length ≤ fuel by omega)
      refine ⟨e₂, ?_, hshows', hsame.trans hsame'⟩
      have hend : a + 2 + (2 + x.data.length) + (xs.flatMap Extra.bytes).length =
          a + (x.data.length + 4 + (xs.flatMap Extra.bytes).length) := by omega
      have hnext : a + (2 + 2) + x.data.length = a + 2 + (2 + x.data.length) := by omega
      rw [hend] at hwalk
      rw [walkExtra, if_pos (by omega), readLE_of_holds htag (tag_lt x),
        readLE_of_holds hcount (by norm_num; omega)]
      simp only [bind_eq_bind, bind_some]
      rw [if_neg (by omega), hchunk, bind_some, hnext, hwalk]

/-- A number of a header is read, and the rest of the header lies behind it. -/
theorem readLE_field {k x : ℕ} {fs : List (ℕ × ℕ)}
    (h : Holds data a (((k, x) :: fs).flatMap fun f => leBytes f.1 f.2)) (hx : x < 256 ^ k) :
    readLE data a k = some x ∧ Holds data (a + k) (fs.flatMap fun f => leBytes f.1 f.2) := by
  rw [flatMap_cons] at h
  obtain ⟨hfield, hrest⟩ := holds_append.1 h
  rw [length_leBytes] at hrest
  exact ⟨readLE_of_holds hfield hx, hrest⟩

/-- What is read of an entry. -/
structure Reads (data : List QByte) (e : ZipCentralEntry) (c : CentralEntry) : Prop where
  entry : Shows data e c.view
  cesize : e.cesize = c.bytes.length
  crc32 : e.crc32 = c.crc32.toNat
  flags : e.flags = entryFlags c.versionMadeby c.view.gflags c.cmethod.toNat c.eattributes

/-- A well-formed entry is read where its bytes lie. -/
theorem readCentralEntry_of_holds (mktime : ℕ → ℕ → BitVec 64) {c : CentralEntry} {ofs : ℕ}
    (hwf : c.WellFormed) (h : Holds data ofs c.bytes) :
    ∃ e, readCentralEntry mktime data ofs = some (some e) ∧ Reads data e c := by
  obtain ⟨hheader, h⟩ := holds_append.1 h
  obtain ⟨hfname, h⟩ := holds_append.1 h
  obtain ⟨hextra, -⟩ := holds_append.1 h
  obtain ⟨hsig, hfields⟩ := holds_append.1 hheader
  have hlen : c.header.length = 46 := by simp [CentralEntry.header, CentralEntry.fields]
  rw [hlen] at hfname hextra
  rw [add_assoc] at hextra
  simp only [length_cons, length_nil] at hfields
  have hfname_lt := hwf.fname_lt
  have hextra_lt := hwf.extra_lt
  have hcomment_lt := hwf.comment_lt
  obtain ⟨h4, hfields⟩ := readLE_field hfields c.versionMadeby.isLt
  obtain ⟨h6, hfields⟩ := readLE_field hfields c.versionNeeded.isLt
  obtain ⟨h8, hfields⟩ := readLE_field hfields c.gflags.isLt
  obtain ⟨h10, hfields⟩ := readLE_field hfields c.cmethod.isLt
  obtain ⟨h12, hfields⟩ := readLE_field hfields c.lastmodfiletime.isLt
  obtain ⟨h14, hfields⟩ := readLE_field hfields c.lastmodfiledate.isLt
  obtain ⟨h16, hfields⟩ := readLE_field hfields c.crc32.isLt
  obtain ⟨h20, hfields⟩ := readLE_field hfields c.csize.isLt
  obtain ⟨h24, hfields⟩ := readLE_field hfields c.usize.isLt
  obtain ⟨h28, hfields⟩ := readLE_field hfields (by simpa using hfname_lt)
  obtain ⟨h30, hfields⟩ := readLE_field hfields (by simpa using hextra_lt)
  obtain ⟨h32, hfields⟩ := readLE_field hfields (by simpa using hcomment_lt)
  obtain ⟨h34, hfields⟩ := readLE_field hfields c.disknum.isLt
  obtain ⟨h36, hfields⟩ := readLE_field hfields c.iattributes.isLt
  obtain ⟨h38, hfields⟩ := readLE_field hfields c.eattributes.isLt
  obtain ⟨h42, -⟩ := readLE_field hfields c.localheaderoffset.isLt
  simp only [add_assoc, Nat.reduceAdd] at h4 h6 h8 h10 h12 h14 h16 h20 h24
  simp only [add_assoc, Nat.reduceAdd] at h28 h30 h32 h34 h36 h38 h42
  let e₀ : ZipCentralEntry :=
    { fname := ofs + 46
      fnameLen := c.fname.length
      cesize := 46 + c.fname.length
      flags := 0
      mtime := mktime c.lastmodfiletime.toNat c.lastmodfiledate.toNat
      versionMadeby := c.versionMadeby
      gflags := c.gflags
      cmethod := c.cmethod.toNat
      crc32 := c.crc32.toNat
      csize := c.csize.toNat
      usize := c.usize.toNat
      disknum := c.disknum.toNat
      eattributes := c.eattributes
      localheaderoffset := c.localheaderoffset.toNat }
  have hshows : Shows data e₀ c.headerView := ⟨hfname, rfl, rfl, rfl, rfl, rfl, rfl⟩
  obtain ⟨e, hwalk, hshows', hsame⟩ := walkExtra_of_holds hshows hwf.extras hextra hextra_lt le_rfl
  refine ⟨{ e with
    cesize := e.cesize + c.extra.length + c.comment.length
    flags := entryFlags e.versionMadeby e.gflags e.cmethod e.eattributes }, ?_, ?_⟩
  · simp only [readCentralEntry, signature_of_holds hsig, h4, h6, h8, h10, h12, h14, h16, h20, h24, h28, h30, h32, h34,
      h36, h38, h42, bind_eq_bind, bind_some, BitVec.ofNat_toNat, BitVec.setWidth_eq]
    rw [if_neg (by decide)]
    exact congrArg (Option.bind · fun e => some (some { e with
      cesize := e.cesize + c.extra.length + c.comment.length
      flags := entryFlags e.versionMadeby e.gflags e.cmethod e.eattributes })) hwalk
  · refine ⟨⟨hshows'.name, hshows'.fnameLen, hshows'.usize, hshows'.csize, hshows'.localheaderoffset,
      hshows'.disknum, hshows'.gflags⟩, ?_, hsame.crc32, ?_⟩
    · simp only [hsame.cesize, CentralEntry.bytes, length_append, hlen, e₀]
      omega
    · rw [hsame.versionMadeby, hsame.cmethod, hsame.eattributes, hshows'.gflags]
      rfl

/-! ## The run over the entries -/

/-- The counter of the loop behind the copy of a name. -/
def countAfter (e : ZipCentralEntry) (i : ℕ) : ℕ :=
  if e.gflags &&& (1 <<< 11) ≠ 0 then min e.fnameLen (maxQpath - 1) else i

theorem copyLegacy_isSome {left : ℕ} (h : (copyLegacy data a left nlen name).isSome)
    (name' : Mem QByte) : (copyLegacy data a left nlen name').isSome := by
  induction left generalizing a nlen name name' with
  | zero => rfl
  | succ left ih =>
    rw [copyLegacy] at h ⊢
    cases hc : data[a]? with
    | none => simp [hc] at h
    | some c =>
      rw [hc] at h
      simp only [bind_eq_bind, bind_some] at h ⊢
      split at h <;> rename_i hroom
      · rw [if_pos hroom]
        rfl
      · rw [if_neg hroom]
        exact ih h _

/-- Whether a name can be copied does not depend on what was there. -/
theorem copyName_isSome {i : ℕ} (h : (copyName data e i name).isSome)
    (name' : Mem QByte) : ∃ name'', copyName data e i name' = some (name'', countAfter e i) := by
  unfold copyName countAfter at *
  by_cases hutf : e.gflags &&& (1 <<< 11) ≠ 0
  · simp only [if_pos hutf] at h ⊢
    cases hread : readBytes data e.fname (min e.fnameLen (maxQpath - 1)) with
    | none => simp [copyUtf8, hread] at h
    | some bytes => exact ⟨_, by simp [copyUtf8, hread]; rfl⟩
  · simp only [if_neg hutf] at h ⊢
    cases hcopy : copyLegacy data e.fname e.fnameLen 0 name with
    | none => simp [hcopy] at h
    | some copied =>
      have hsome := isSome_of_eq_some hcopy
      obtain ⟨copied', hcopy'⟩ := isSome_iff_exists.1 (copyLegacy_isSome hsome name')
      exact ⟨copied', by simp [hcopy']⟩

/-- The copy of the name of an entry. -/
theorem copyName_of_shows (he : Shows data e v) (hne : v.gflags &&& (1 <<< 11) ≠ 0 → ∀ c ∈ v.name, c ≠ 0)
    (hslash : v.gflags &&& (1 <<< 11) ≠ 0 → 0x5c ∉ v.name.take (maxQpath - 1)) (i : ℕ) (name : Mem QByte) :
    ∃ name', copyName data e i name = some (name', countAfter e i) ∧ Named name' v.rawName ∧
      ((∀ a, name a = 0) → ZeroFrom name' v.rawName.length) := by
  unfold copyName countAfter View.rawName
  rw [he.gflags]
  by_cases hutf : v.gflags &&& (1 <<< 11) ≠ 0
  · simp only [if_pos hutf]
    have hraw : (v.name.map slash).take (maxQpath - 1) = v.name.take (maxQpath - 1) := by
      rw [← map_take, map_slash_of_not_mem (hslash hutf)]
    have hcount : (v.name.take (maxQpath - 1)).length = min e.fnameLen (maxQpath - 1) := by
      rw [length_take, he.fnameLen, min_comm]
    obtain ⟨name', hcopy, hnamed, hzero⟩ := copyUtf8_of_holds (Holds.take he.name (maxQpath - 1))
      (fun c hc => hne hutf c (mem_of_mem_take hc))
      ((length_take_le _ _).trans_lt (by decide)) name
    rw [hcount] at hcopy
    rw [hraw]
    exact ⟨name', by simp [hcopy], hnamed, hzero⟩
  · simp only [if_neg hutf]
    obtain ⟨name', hcopy, hnamed, hzero⟩ := copyLegacy_of_holds he.name
      (show name.slice 0 0 = [] from rfl) (by simp) (by decide)
    rw [← he.fnameLen] at hcopy
    exact ⟨name', by simp [hcopy], hnamed, fun h => hzero fun a _ => h a⟩

/-- A prefix other than a path leaves no file out. -/
theorem head?_of_prefixRule_eq_none {pre s : List QByte} (h : prefixRule pre s = none) :
    pre.head? = some 0x2f := by
  unfold prefixRule at h
  by_contra hslash
  rw [if_neg hslash] at h
  split at h
  · exact some_ne_none _ h
  · split at h
    · exact some_ne_none _ h
    · split at h
      · exact some_ne_none _ h
      · exact some_ne_none _ h

section Run

variable {mktime : ℕ → ℕ → BitVec 64} {numfiles : ℕ} (pre : CString) (zipoffset : ℕ)

/-- While the counter agrees with the entries, the run stays inside and does not fail. -/
theorem Agrees.safe {i ofs : ℕ} (h : Agrees mktime data numfiles i ofs) {k : ℕ} (hk : k ≤ i)
    (files : ℕ → ZPackFile) (fuel : ℕ) :
    enumerateFrom mktime data numfiles pre.chars zipoffset fuel i ofs k files ≠ .undef ∧
      ∀ r, enumerateFrom mktime data numfiles pre.chars zipoffset fuel i ofs k files = .done r →
        r.success = true := by
  induction h generalizing k files fuel with
  | done ofs =>
    cases fuel with
    | zero => exact ⟨nofun, nofun⟩
    | succ fuel =>
      rw [enumerateFrom, if_neg (lt_irrefl _)]
      refine ⟨nofun, fun r hr => ?_⟩
      cases hr
      simp [finish]
  | @entry i ofs e hi hread hsize hname hcount hslash hnext ih =>
    cases fuel with
    | zero => exact ⟨nofun, nofun⟩
    | succ fuel =>
      have hafter : countAfter e i = i := by
        unfold countAfter
        split
        · exact hcount ‹_›
        · rfl
      obtain ⟨name, hcopy⟩ := copyName_isSome hname (files k).name
      rw [hafter] at hcopy
      rw [enumerateFrom, if_pos hi, hread]
      simp only [hcopy]
      rw [if_neg (by omega), if_neg (by omega)]
      cases applyPrefix pre.chars name with
      | none => exact ih (by omega) _ fuel
      | some name => exact ih (by omega) _ fuel

theorem kept_cons_of_none {c : CentralEntry} {cs : List CentralEntry} {pre : List QByte}
    (h : c.expectedName pre = none) : kept (c :: cs) pre = kept cs pre := by
  rw [kept, filterMap_cons_none (by rw [h]; rfl)]
  rfl

theorem kept_cons_of_some {c : CentralEntry} {cs : List CentralEntry} {pre name : List QByte}
    (h : c.expectedName pre = some name) : kept (c :: cs) pre = (c, name) :: kept cs pre := by
  rw [kept, filterMap_cons_some (b := (c, name)) (by rw [h]; rfl)]
  rfl

/-- The files that the run over entries comes to, behind the files that are there. -/
def Listed (zipoffset : ℕ) (o : Outcome) (k : ℕ) (files : ℕ → ZPackFile)
    (fs : List (CentralEntry × List QByte)) : Prop :=
  ∃ r, o = .done r ∧ r.success = true ∧ r.numfiles = some (k + fs.length) ∧
    (∀ j < k, r.files j = files j) ∧
    ∀ j (h : j < fs.length), Matches zipoffset (r.files (k + j)) fs[j].1 fs[j].2

/-- The run over well-formed entries, whose files come behind the `k` files that are there. In the
prefix mode that writes in front of a name, the names of the table are not written to before. -/
theorem Agrees.listed {i ofs k : ℕ} {files : ℕ → ZPackFile} {cs : List CentralEntry}
    (h : Agrees mktime data numfiles i ofs) (hwf : ∀ c ∈ cs, c.WellFormed)
    (hnamed : ∀ c ∈ cs, c.expectedName pre.chars = some [] → c.view.usize = 0)
    (hdata : Holds data ofs (cs.flatMap CentralEntry.bytes)) (hcount : i + cs.length = numfiles) (hk : k ≤ i)
    (hfresh : pre.chars.head? ≠ some 0x2f → ∀ j, k ≤ j → ∀ a, (files j).name a = 0) :
    ∃ fuel, Listed zipoffset (enumerateFrom mktime data numfiles pre.chars zipoffset fuel i ofs k files)
      k files (kept cs pre.chars) := by
  induction cs generalizing i ofs k files with
  | nil =>
    refine ⟨1, _, by rw [enumerateFrom, if_neg (by simp at hcount; omega)], ?_⟩
    simp only [length_nil, add_zero] at hcount
    simp [finish, hcount, kept]
  | cons c cs ih =>
    rw [length_cons] at hcount
    rw [flatMap_cons] at hdata
    obtain ⟨hentry, hrest⟩ := holds_append.1 hdata
    cases h with
    | done => omega
    | @entry _ _ e hi hread hsize _ hcounter hslash hnext =>
      obtain ⟨e', hread', hreads⟩ := readCentralEntry_of_holds mktime (hwf c (.head _)) hentry
      obtain rfl : e = e' := some.inj (some.inj (hread.symm.trans hread'))
      rw [hreads.entry.gflags] at hcounter hslash
      rw [hreads.entry.fnameLen, Holds.take_drop hreads.entry.name] at hslash
      have hafter : countAfter e i = i := by
        unfold countAfter
        rw [hreads.entry.gflags]
        split
        · exact hcounter ‹_›
        · rfl
      obtain ⟨name, hcopy, hname, hzero⟩ := copyName_of_shows hreads.entry
        (hwf c (.head _)).name_ne hslash i (files k).name
      rw [hafter] at hcopy
      have hrel := hname.applyPrefix pre.ne_zero fun hs => hzero (hfresh hs k le_rfl)
      have hkn : ¬ numfiles ≤ k := by omega
      rw [← hreads.cesize] at hrest
      generalize hpre : applyPrefix pre.chars name = o at hrel
      generalize hrule : prefixRule pre.chars c.view.rawName = o' at hrel
      cases hrel with
      | none =>
        have hkept : c.expectedName pre.chars = none := by rw [CentralEntry.expectedName, hrule]; rfl
        let f : ZPackFile := { files k with disknum := e.disknum, crc := e.crc32, name := name }
        obtain ⟨fuel, r, hr, hsuccess, hnum, hbefore, hmatch⟩ := @ih (i + 1) (ofs + e.cesize) k
          (Function.update files k f) hnext (fun c' hc' => hwf c' (.tail _ hc'))
          (fun c' hc' => hnamed c' (.tail _ hc')) hrest (by omega)
          (by omega) fun hs => absurd (head?_of_prefixRule_eq_none hrule) hs
        rw [kept_cons_of_none hkept]
        refine ⟨fuel + 1, r, ?_, hsuccess, hnum, fun j hj => ?_, hmatch⟩
        · rw [enumerateFrom, if_pos hi, hread]
          simp only [hcopy]
          rw [if_neg (by omega), if_neg hkn, hpre]
          exact hr
        · rw [hbefore j hj, Function.update_of_ne hj.ne]
      | @some name' s hname' =>
        have hkept : c.expectedName pre.chars = some (s.map toLower) := by
          rw [CentralEntry.expectedName, hrule]
          rfl
        have hlower := hname'.strlwr
        generalize hf : ({ files k with
          disknum := e.disknum
          crc := e.crc32
          name := strlwr name'
          filelen := if strlwr name' 0 ≠ 0 then e.usize else 0
          localpos := BitVec.ofNat 64 (e.localheaderoffset + zipoffset)
          flags := e.flags
          mtime := e.mtime } : ZPackFile) = f
        obtain ⟨fuel, r, hr, hsuccess, hnum, hbefore, hmatch⟩ := @ih (i + 1) (ofs + e.cesize) (k + 1)
          (Function.update files k f) hnext (fun c' hc' => hwf c' (.tail _ hc'))
          (fun c' hc' => hnamed c' (.tail _ hc')) hrest (by omega)
          (by omega) fun hs j hj a => by
            rw [Function.update_of_ne (show j ≠ k by omega)]
            exact hfresh hs j (by omega) a
        have hlen : f.filelen = c.view.usize := by
          rw [← hf, ← hreads.entry.usize]
          by_cases hnil : s.map toLower = []
          · rw [hreads.entry.usize, hnamed c mem_cons_self (hkept.trans (congrArg some hnil))]
            exact ite_self 0
          · exact if_pos (hlower.zero_ne_iff.2 hnil)
        have hfile : Matches zipoffset f c (s.map toLower) := by
          refine ⟨?_, hlen, ?_, ?_, ?_, ?_⟩
          · rw [← hf]
            exact hlower.cstr
          · rw [← hf]
            exact hreads.crc32
          · rw [← hf]
            exact hreads.flags
          · rw [← hf]
            exact congrArg (fun x => BitVec.ofNat 64 (x + zipoffset)) hreads.entry.localheaderoffset
          · rw [← hf]
            exact hreads.entry.disknum
        rw [kept_cons_of_some hkept]
        refine ⟨fuel + 1, r, ?_, hsuccess, ?_, fun j hj => ?_, fun j hj => ?_⟩
        · rw [enumerateFrom, if_pos hi, hread]
          simp only [hcopy]
          rw [if_neg (by omega), if_neg hkn, hpre]
          subst hf
          exact hr
        · rw [hnum, length_cons]
          congr 1
          omega
        · rw [hbefore j (by omega), Function.update_of_ne hj.ne]
        · cases j with
          | zero =>
            rw [add_zero, hbefore k (lt_succ_self k), Function.update_self]
            exact hfile
          | succ j =>
            have hm := hmatch j (by simpa using hj)
            rwa [add_right_comm] at hm

end Run

/-! ## The directory -/

/-- A directory that fits is read inside, and its entries come out as files. -/
theorem enumerate_keeps {mktime : ℕ → ℕ → BitVec 64} {data : List QByte} {numfiles : ℕ} {pre : CString}
    {zipoffset : ℕ} (h : Fits mktime data numfiles pre) :
    Enumerates mktime data numfiles pre zipoffset := by
  refine ⟨fun fuel => ?_, fun es hwf hdata hcount => ?_⟩
  · obtain ⟨hne, hsuccess⟩ := h.agrees.safe pre zipoffset le_rfl (fun _ => .empty) fuel
    refine ⟨hne, fun r hr hfail => ?_⟩
    rw [hsuccess r hr] at hfail
    exact absurd hfail (by decide)
  · have hholds : Holds data 0 (es.flatMap CentralEntry.bytes) := hdata ▸ List.prefix_rfl
    have hfresh : pre.chars.head? ≠ some 0x2f → ∀ j, 0 ≤ j → ∀ a,
        ((fun _ => ZPackFile.empty : ℕ → ZPackFile) j).name a = 0 := fun _ _ _ _ => rfl
    obtain ⟨fuel, r, hr, hsuccess, hnum, -, hmatch⟩ := h.agrees.listed pre zipoffset hwf
      (h.named es hwf hdata) hholds ((Nat.zero_add _).trans hcount.symm) le_rfl hfresh
    simp only [Nat.zero_add] at hnum hmatch
    exact ⟨fuel, r, hr, hsuccess, hnum, hmatch⟩

/-- A file without contents, with the flags given. -/
def letter (gflags : BitVec 16) : CentralEntry where
  versionMadeby := 20
  versionNeeded := 20
  gflags := gflags
  cmethod := 0
  lastmodfiletime := 0
  lastmodfiledate := 0
  crc32 := 0
  csize := 0
  usize := 0
  disknum := 0
  iattributes := 0
  eattributes := 0
  localheaderoffset := 0
  fname := [0x61]
  extras := []
  comment := []

theorem letter_wellFormed (gflags : BitVec 16) : (letter gflags).WellFormed := by
  refine ⟨?_, ?_, ?_, trivial, fun _ c hc => ?_⟩
  · exact (show 1 < 2 ^ 16 by decide)
  · exact (show 0 < 2 ^ 16 by decide)
  · exact (show 0 < 2 ^ 16 by decide)
  · obtain rfl := List.mem_singleton.1 hc
    decide

theorem length_bytes_pos (c : CentralEntry) : 46 ≤ c.bytes.length := by
  rw [CentralEntry.bytes, length_append]
  simp [CentralEntry.header, CentralEntry.fields]

theorem enumerate_keeps_letter :
    Fits (fun _ _ => 0) (letter 0).bytes 1 ⟨[], nofun⟩ ∧
      Enumerates (fun _ _ => 0) (letter 0).bytes 1 ⟨[], nofun⟩ 0 := by
  have hfits : Fits (fun _ _ => 0) (letter 0).bytes 1 ⟨[], nofun⟩ := by
    have hholds : Holds (letter 0).bytes 0 (letter 0).bytes := List.prefix_rfl
    obtain ⟨e, hread, hreads⟩ := readCentralEntry_of_holds (fun _ _ => 0) (letter_wellFormed 0) hholds
    have hlegacy : (letter 0).view.gflags &&& (1 <<< 11) = 0 := by decide
    obtain ⟨name, hcopy, -⟩ := copyName_of_shows hreads.entry (fun h => absurd hlegacy h)
      (fun h => absurd hlegacy h) 0 fun _ => 0
    refine ⟨.entry (by decide) hread (by rw [Nat.zero_add, hreads.cesize]) (hcopy ▸ rfl)
      (fun h => absurd (hreads.entry.gflags ▸ hlegacy) h)
      (fun h => absurd (hreads.entry.gflags ▸ hlegacy) h) (.done _), ?_⟩
    intro cs hwf hdata c hc _
    cases cs with
    | nil => exact absurd hc List.not_mem_nil
    | cons c' cs =>
      have hc' : Holds (letter 0).bytes 0 c'.bytes := hdata ▸ List.prefix_append _ _
      obtain ⟨e', hread', hreads'⟩ :=
        readCentralEntry_of_holds (fun _ _ => 0) (hwf c' List.mem_cons_self) hc'
      obtain rfl : e = e' := Option.some.inj (Option.some.inj (hread.symm.trans hread'))
      have hlen := congrArg List.length hdata
      rw [List.flatMap_cons, List.length_append, ← hreads.cesize, hreads'.cesize] at hlen
      cases cs with
      | nil =>
        obtain rfl := List.mem_singleton.1 hc
        rw [← hreads'.entry.usize, hreads.entry.usize]
        rfl
      | cons d cs =>
        have hpos := length_bytes_pos d
        rw [List.flatMap_cons, List.length_append] at hlen
        omega
  exact ⟨hfits, enumerate_keeps hfits⟩

/-- A UTF-8 name of one letter moves the counter past the end of the directory. -/
theorem enumerate_utf8_letter :
    ¬ Safe (fun _ _ => 0) (letter (1 <<< 11)).bytes 1 ⟨[], nofun⟩ 0 ∧
      ¬ ∀ es, (∀ e ∈ es, e.WellFormed) → (letter (1 <<< 11)).bytes = es.flatMap CentralEntry.bytes →
        1 = es.length → Complete (fun _ _ => 0) (letter (1 <<< 11)).bytes 1 ⟨[], nofun⟩ 0 es := by
  have hrun : ∀ fuel, ∃ files, enumerate (fun _ _ => 0) (letter (1 <<< 11)).bytes 1 [] 0 (fuel + 2) =
      .done ⟨false, none, files⟩ := fun fuel => ⟨_, rfl⟩
  constructor
  · intro h
    obtain ⟨files, hr⟩ := hrun 0
    exact absurd ((h 2).2 _ hr rfl) (by simp)
  · intro h
    obtain ⟨fuel, r, hr, hsuccess, -⟩ := h [letter (1 <<< 11)]
      (fun e he => List.mem_singleton.1 he ▸ letter_wellFormed _) (by simp) rfl
    match fuel with
    | 0 => cases hr
    | 1 => cases hr
    | fuel + 2 =>
      obtain ⟨files, hr'⟩ := hrun fuel
      rw [hr'] at hr
      cases hr
      cases hsuccess

end ZipDirectory

end FteQuake
