import Bidx.Live.Chain
import Bidx.Parser.MainChain
import Bidx.Parser.RecordWalk
import Bidx.Pipeline.FileCache

/-!
# The blocks in a directory

The header pass opens the blk files under the names it finds and reads their records;
a worker opens a file again under the name it prints for the number, and reads the
payload of one record.  Whatever bytes the files hold, the worker gets the payload
whose header the header pass has seen (`Holds`), so that the chain of hashes the index
describes is a chain of blocks (`StoredChain`).
-/

namespace Bidx

open LittleEndian TextLines

/-- The blk files of a directory, as the header pass opens and iterates them. -/
def readBlocksDir (dir : Option BlocksDir) : Except BlkError (List BlkFile) := do
  let files ← discoverBlkFiles dir
  let entries := dir.getD []
  return files.map fun file =>
    readBlkFile file.1 (entries.read file.2) (entries.read xorDatName)

/-- A worker reads `raw` where the header pass saw the record. -/
structure Holds (dir : BlocksDir) (rec : BlkRecord) (raw : RawBlock) : Prop where
  bytes : blockBytesDirect dir rec.location = .ok raw
  header : rec.headerRaw = headerOf raw

/-! ## Names -/

/-- The name printed for the number of a file is the name it was found under. -/
theorem blkFileName_of_parse {name : List Char} {id : UInt32} (h : parseBlkName name = some id) :
    blkFileName id = name := by
  obtain ⟨stem, rfl, hlen, hdigits, hid⟩ := parseBlkName_eq_some h
  have hne : stem ≠ [] := by
    rintro rfl
    contradiction
  have hstem := leftpad_toDigits hne hdigits
  rw [hlen] at hstem
  rw [blkFileName, hid, hstem, List.append_assoc]

/-! ## A record and its payload -/

section Payload

variable {it it' : BlkRecordIter} {rec : BlkRecord} {f : MappedBlkFile}

/-- Where a record stands in the bytes it was read from. -/
structure StandsIn (fileId : UInt32) (data : List UInt8) (pos len : Nat) (rec : BlkRecord) :
    Prop where
  header_le : blockHeaderLen ≤ len
  fits : pos + 8 + len ≤ data.length
  location : rec.location = ⟨fileId, UInt64.ofNat pos, UInt32.ofNat (len + 8)⟩
  headerRaw : rec.headerRaw = arrayAt blockHeaderLen data (pos + 8)

theorem readRecord_eq_ok {fileId : UInt32} {data : List UInt8} {pos len : Nat} {magic : UInt32}
    (h : readRecord fileId data pos magic len = .ok rec) : StandsIn fileId data pos len rec := by
  unfold readRecord at h
  split_ifs at h with hmagic hlen
  rw [not_or, not_lt, not_lt] at hlen
  obtain rfl := Except.ok.inj h
  exact ⟨hlen.1, hlen.2, rfl, rfl⟩

theorem next_eq_record (h : it.next = (some (.ok rec), it')) :
    it'.fileId = it.fileId ∧ it'.data = it.data ∧
      ∃ pos len, StandsIn it.fileId it.data pos len rec := by
  unfold BlkRecordIter.next at h
  dsimp only at h
  split_ifs at h with hend
  · cases h
  split at h
  · cases h
  · rename_i rec' hrecord
    obtain ⟨heq, rfl⟩ := Prod.mk.inj h
    obtain rfl := Except.ok.inj (Option.some.inj heq)
    exact ⟨rfl, rfl, _, _, readRecord_eq_ok hrecord⟩

/-- Every record an iterator yields stands in its bytes, whatever they are. -/
theorem standsIn_of_mem_items {fuel : Nat} (h : .ok rec ∈ it.items fuel) :
    ∃ pos len, StandsIn it.fileId it.data pos len rec := by
  induction fuel generalizing it with
  | zero => cases h
  | succ fuel ih =>
      unfold BlkRecordIter.items at h
      split at h
      · cases h
      · cases List.mem_singleton.mp h
      · rename_i rec' it' hnext
        obtain ⟨hid, hdata, hstands⟩ := next_eq_record hnext
        rcases List.mem_cons.mp h with heq | hmem
        · obtain rfl := Except.ok.inj heq
          exact hstands
        · have hrest := ih hmem
          rwa [hid, hdata] at hrest

/-- The header of a payload is the header at its place. -/
theorem headerOf_cut {data : List UInt8} {start len : Nat} (hheader : blockHeaderLen ≤ len)
    (hfits : start + len ≤ data.length) :
    headerOf ((data.drop start).take len) = arrayAt blockHeaderLen data start := by
  have hlength : (data.drop start).length = data.length - start := List.length_drop
  apply List.Vector.toList_injective
  rw [headerOf, arrayAt_toList (by rw [List.drop_zero, List.length_take]; omega), List.drop_zero,
    List.take_take, Nat.min_eq_left hheader, arrayAt_toList (by omega)]

/-- In a file below `2 ^ 32` bytes the length field and the offset say what they stand for. -/
theorem StandsIn.blockBytes {pos len : Nat} (h : StandsIn f.fileId f.data pos len rec)
    (hlt : f.data.length < 2 ^ 32) :
    f.blockBytes rec.location = .ok ((f.data.drop (pos + 8)).take len) := by
  have hfits := h.fits
  have hoffset : (UInt64.ofNat pos).toNat = pos := by
    rw [UInt64.toNat_ofNat', Nat.mod_eq_of_lt (by omega)]
  have hlen : (UInt32.ofNat (len + 8)).toNat = len + 8 := by
    rw [UInt32.toNat_ofNat', Nat.mod_eq_of_lt (by omega)]
  simp only [MappedBlkFile.blockBytes, h.location, hoffset, hlen, Nat.add_sub_cancel]
  rw [if_neg (by omega), if_neg (by omega)]

theorem length_data_le {fileId : UInt32} {raw : List UInt8} {xorDat : Option (List UInt8)}
    (h : MappedBlkFile.openAt fileId (some raw) xorDat = .ok f) : f.data.length ≤ raw.length := by
  rw [openAt_data h, List.length_take, length_decodedBytes]
  exact Nat.min_le_right _ _

end Payload

/-! ## The directory -/

section Directory

variable {dir : BlocksDir} {files : List (List BlkRecord)} {rec : BlkRecord}

/-- The blk files are below `2 ^ 32` bytes each. -/
def BlocksDir.SmallFiles (dir : BlocksDir) : Prop :=
  ∀ name raw, (parseBlkName name).isSome → dir.read name = some raw → raw.length < 2 ^ 32

/-- A file under its number: its records are found again there. -/
theorem holds_of_readBlkFile (hsmall : dir.SmallFiles) {name : List Char} {id : UInt32}
    (hname : parseBlkName name = some id) {records : List BlkRecord}
    (hread : readBlkFile id (dir.read name) (dir.read xorDatName) = BlkFile.ofRecords records)
    (hrec : rec ∈ records) : ∃ raw, Holds dir rec raw := by
  cases hfile : dir.read name with
  | none =>
      rw [hfile] at hread
      cases hread
  | some raw =>
      rw [hfile] at hread
      obtain ⟨f, hopen⟩ : ∃ f, MappedBlkFile.openAt id (some raw) (dir.read xorDatName) = .ok f :=
        ⟨_, rfl⟩
      rw [readBlkFile, hopen, BlkFile.ofRecords, Except.map] at hread
      have hmem : .ok rec ∈ f.records := by
        rw [Except.ok.inj hread]
        exact List.mem_map_of_mem hrec
      obtain ⟨pos, len, hstands⟩ := standsIn_of_mem_items hmem
      have hlt : f.data.length < 2 ^ 32 :=
        (length_data_le hopen).trans_lt (hsmall name raw (by rw [hname]; rfl) hfile)
      have hid : f.fileId = id := by
        obtain rfl := Except.ok.inj hopen
        rfl
      refine ⟨(f.data.drop (pos + 8)).take len, ?_, ?_⟩
      · rw [blockBytesDirect, openBlkFile, hstands.location]
        dsimp only
        rw [hid, blkFileName_of_parse hname, hfile, hopen]
        dsimp only
        rw [← hstands.blockBytes hlt, hstands.location, hid]
      · rw [hstands.headerRaw, headerOf_cut hstands.header_le hstands.fits]

/-- Whatever the files hold, as long as all of them read: the workers read the payload of
every record. -/
theorem readBlocksDir_holds (hsmall : dir.SmallFiles)
    (hread : readBlocksDir (some dir) = .ok (files.map BlkFile.ofRecords))
    (hrec : rec ∈ files.flatten) : ∃ raw, Holds dir rec raw := by
  obtain ⟨found, hfound, hfiles⟩ := except_bind_eq_ok hread
  have hfiles := Except.ok.inj hfiles
  obtain ⟨records, hrecords, hmem⟩ := List.mem_flatten.mp hrec
  have hfile : BlkFile.ofRecords records ∈ files.map BlkFile.ofRecords :=
    List.mem_map_of_mem hrecords
  rw [← hfiles] at hfile
  obtain ⟨file, hin, hopened⟩ := List.mem_map.mp hfile
  obtain ⟨e, -, hname, heq⟩ := (mem_discoverBlkFiles hfound).mp hin
  rw [heq] at hname
  exact holds_of_readBlkFile hsmall hname hopened hmem

end Directory

end Bidx
