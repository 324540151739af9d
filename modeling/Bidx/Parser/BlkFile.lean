import Bidx.Core.Network
import Bidx.Lib.Keystream
import Bidx.Parser.Chain

/-!
# blk files

A blk file is a sequence of `magic || length || payload` records, possibly
obfuscated with a repeating 8-byte key (`xor.dat`) and possibly followed by
preallocated zero bytes.  `MappedBlkFile.openAt` finds the end of the records by
walking their framing on the bytes as they are on disk, decodes the file once when
there is a key, and hands the bytes up to that end to the record iterator.

The file is given by its bytes, `none` where it cannot be opened or mapped; the
key file by its bytes, `none` where it cannot be read.  Loops over file positions
carry fuel; every round that goes on moves forward, so the length of the file is
enough.
-/

namespace Bidx

open LittleEndian

/-- The key byte for a file offset. -/
def keyByte (key : Bytes 8) (off : Nat) : UInt8 := key.get ⟨off % 8, Nat.mod_lt _ (by decide)⟩

/-- `read_xor_key`: an all-zero key counts as none. -/
def readXorKey (xorDat : Option (List UInt8)) : Option (Bytes 8) :=
  match xorDat with
  | none => none
  | some raw =>
      if h : raw.length = 8 then
        if raw = List.replicate 8 0 then none else some ⟨raw, h⟩
      else
        none

/-! ## Decoding -/

/-- The whole 8-byte chunks of `xor_decode`, each XORed as one `u64`. -/
def xorChunks (k64 : UInt64) : Nat → List UInt8 → List UInt8
  | 0, _ => []
  | chunks + 1, buf =>
      toBytes 8 (UInt64.ofNat (ofBytes (buf.take 8)) ^^^ k64).toNat ++
        xorChunks k64 chunks (buf.drop 8)

/-- `xor_decode`. -/
def xorDecode (buf : List UInt8) (key : Bytes 8) : List UInt8 :=
  let k64 := UInt64.ofNat (ofBytes key.toList)
  let start := buf.length / 8 * 8
  xorChunks k64 (buf.length / 8) buf ++
    (buf.drop start).mapIdx fun i b => b ^^^ keyByte key (start + i)

/-! ## Where the records end -/

/-- The word of `record_walk_end` at an offset, read through the key. -/
def walkWord (raw : List UInt8) (off : Nat) (key : Option (Bytes 8)) : UInt32 :=
  let b := (raw.drop off).take 4
  let b := match key with
    | some k => b.mapIdx fun i byte => byte ^^^ keyByte k (off + i)
    | none => b
  UInt32.ofNat (ofBytes b)

/-- The walk; the position it stops at is the end of the last complete record. -/
def walkLoop (raw : List UInt8) (key : Option (Bytes 8)) : Nat → Nat → Nat
  | 0, pos => pos
  | fuel + 1, pos =>
      if pos + 8 + blockHeaderLen ≤ raw.length then
        if isKnownNetworkMagic (walkWord raw pos key) then
          let len := (walkWord raw (pos + 4) key).toNat
          if len < blockHeaderLen ∨ raw.length - pos - 8 < len then
            pos
          else
            walkLoop raw key fuel (pos + 8 + len)
        else
          pos
      else
        pos

/-- `record_walk_end`: a file without any record is kept whole unless its first
byte on disk is zero. -/
def recordWalkEnd (raw : List UInt8) (key : Option (Bytes 8)) : Nat :=
  let recordsEnd := walkLoop raw key raw.length 0
  if recordsEnd = 0 ∧ raw.headD 0 ≠ 0 then raw.length else recordsEnd

/-! ## The open file -/

structure MappedBlkFile where
  fileId : UInt32
  mmap : List UInt8
  decoded : Option (List UInt8)
  dataEnd : Nat

namespace MappedBlkFile

/-- `BlkFile::open`. -/
def openAt (fileId : UInt32) (file : Option (List UInt8)) (xorDat : Option (List UInt8)) :
    Except BlkError MappedBlkFile :=
  match file with
  | none => .error .io
  | some raw =>
      let key := readXorKey xorDat
      let dataEnd := recordWalkEnd raw key
      .ok {
        fileId
        mmap := raw
        decoded := key.map fun k => (xorDecode raw k).take dataEnd
        dataEnd }

/-- The meaningful bytes. -/
def data (f : MappedBlkFile) : List UInt8 :=
  match f.decoded with
  | some bytes => bytes
  | none => f.mmap.take f.dataEnd

end MappedBlkFile

/-! ## Iterating the records -/

structure BlkRecordIter where
  fileId : UInt32
  data : List UInt8
  pos : Nat

/-- The position after the zero bytes at `pos`. -/
def skipPadding (data : List UInt8) (pos : Nat) : Nat :=
  pos + ((data.drop pos).takeWhile fun b => b == 0).length

/-- The record at `pos`, its magic and length already read. -/
def readRecord (fileId : UInt32) (data : List UInt8) (pos : Nat) (magic : UInt32) (len : Nat) :
    Except BlkError BlkRecord :=
  if ¬isKnownNetworkMagic magic then
    .error (.corrupt fileId (UInt64.ofNat pos) (.badMagic magic))
  else if len < blockHeaderLen ∨ data.length < pos + 8 + len then
    .error (.corrupt fileId (UInt64.ofNat pos) (.badRecordLen len))
  else
    .ok {
      location := ⟨fileId, UInt64.ofNat pos, UInt32.ofNat (len + 8)⟩
      headerRaw := arrayAt blockHeaderLen data (pos + 8) }

/-- `BlkRecordIter::next`: the item, and the iterator after it. -/
def BlkRecordIter.next (it : BlkRecordIter) : Option (Except BlkError BlkRecord) × BlkRecordIter :=
  let pos := skipPadding it.data it.pos
  if it.data.length < pos + 8 then
    (none, { it with pos })
  else
    let magic := u32At it.data pos
    let len := (u32At it.data (pos + 4)).toNat
    match readRecord it.fileId it.data pos magic len with
    | .error e => (some (.error e), { it with pos })
    | .ok rec => (some (.ok rec), { it with pos := pos + 8 + len })

/-- The items up to the end or the first error. -/
def BlkRecordIter.items : Nat → BlkRecordIter → List (Except BlkError BlkRecord)
  | 0, _ => []
  | fuel + 1, it =>
      match it.next with
      | (none, _) => []
      | (some (.error e), _) => [.error e]
      | (some (.ok rec), it) => .ok rec :: it.items fuel

namespace MappedBlkFile

/-- `records()`, iterated up to the end or the first error. -/
def records (f : MappedBlkFile) : List (Except BlkError BlkRecord) :=
  BlkRecordIter.items (f.data.length + 1) ⟨f.fileId, f.data, 0⟩

/-- `block_bytes`; a record length below 8 makes the slice bounds cross. -/
def blockBytes (f : MappedBlkFile) (loc : BlockLocation) :
    Except (Stop BlkError) (List UInt8) :=
  let start := loc.offset.toNat + 8
  if loc.recordLen.toNat < 8 then
    .error .panic
  else
    let stop := start + (loc.recordLen.toNat - 8)
    if f.data.length < stop then
      .error (.error (.corrupt f.fileId loc.offset (.recordOverrunsFile stop f.data.length)))
    else
      .ok ((f.data.drop start).take (loc.recordLen.toNat - 8))

end MappedBlkFile

/-- A blk file as the header pass opens and iterates it. -/
def readBlkFile (fileId : UInt32) (file : Option (List UInt8)) (xorDat : Option (List UInt8)) :
    BlkFile :=
  (MappedBlkFile.openAt fileId file xorDat).map MappedBlkFile.records

end Bidx
