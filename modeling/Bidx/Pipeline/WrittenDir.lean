import Bidx.Parser.ExactNumbers
import Bidx.Pipeline.FromDisk

/-!
# What a node has written is what is parsed

A node writes its blocks in the order they come, with stale branches among them, into
numbered files, obfuscated or not, and leaves zero bytes or the beginning of a record
behind the last one.  The header pass and the workers find exactly these blocks again,
so that a bulk parse makes its output of the heaviest chain that was written.
-/

namespace Bidx

open LittleEndian

/-- A blk file as a node leaves it: complete records, and behind them something else. -/
structure Written (raw : List UInt8) (xorDat : Option (List UInt8)) (frames : List BlkFrame) :
    Prop where
  ne_nil : frames ≠ []
  length_lt : raw.length < 2 ^ 32
  ends : ∃ rest, decodedBytes raw (readXorKey xorDat) = framed frames ++ rest ∧
    ∀ len, ¬FrameAt (framed frames ++ rest) (framed frames).length len

/-- Every blk file of the directory holds the frames of its number, and there is one. -/
structure WrittenDir (dir : BlocksDir) (frames : UInt32 → List BlkFrame) : Prop where
  listed : ∃ e ∈ dir, (parseBlkName e.1).isSome
  written : ∀ e ∈ dir, ∀ id, parseBlkName e.1 = some id →
    ∃ raw, dir.read e.1 = some raw ∧ Written raw (dir.read xorDatName) (frames id)

/-- The blocks written, in the order of the listing. -/
def storedBlocks (dir : BlocksDir) (frames : UInt32 → List BlkFrame) : List RawBlock :=
  (dir.filterMap fun e => parseBlkName e.1).flatMap fun id => (frames id).map BlkFrame.payload

/-- The link from a block's hash to its parent's. -/
def BlockLink (D : Digests) (blocks : List RawBlock) (a b : Hash32) : Prop :=
  ∃ raw ∈ blocks, blockHash D raw = a ∧ prevHash raw = b

/-- `chain` is the one heaviest chain among some blocks. -/
structure HeaviestOf {W : Type} [AddMonoid W] [LinearOrder W] (D : Digests)
    (work : BlockHeader → W) (blocks chain : List RawBlock) : Prop where
  acyclic : ∀ a, ¬Relation.TransGen (BlockLink D blocks) a a
  distinct : ∀ raw ∈ blocks, ∀ raw' ∈ blocks, blockHash D raw = blockHash D raw' →
    headerOf raw = headerOf raw'
  nonzero : ∀ raw ∈ blocks, blockHash D raw ≠ Hash32.zero
  linked : LinkedChain D chain
  ne_nil : chain ≠ []
  subset : ∀ raw ∈ chain, raw ∈ blocks
  heaviest : ∀ other, LinkedChain D other → other ≠ [] → (∀ raw ∈ other, raw ∈ blocks) →
    other ≠ chain → chainWork work other < chainWork work chain

/-! ## A file -/

section File

variable {dir : BlocksDir} {frames : List BlkFrame} {name : List Char} {id : UInt32}
  {raw : List UInt8}

theorem headerRaw_recordsAt (id : UInt32) (pos : Nat) (frames : List BlkFrame) :
    List.Forall₂ (fun rec frame => rec.headerRaw = headerOf frame.payload ∧
      rec.location.fileId = id) (recordsAt id pos frames) frames := by
  induction frames generalizing pos with
  | nil => exact .nil
  | cons frame frames ih => exact .cons ⟨rfl, rfl⟩ (ih _)

/-- The header pass reads one record for each frame, and a worker its payload. -/
theorem Written.holds (hread : dir.read name = some raw)
    (h : Written raw (dir.read xorDatName) frames) (hname : parseBlkName name = some id) :
    readBlkFile id (dir.read name) (dir.read xorDatName) =
        BlkFile.ofRecords (recordsAt id 0 frames) ∧
      List.Forall₂ (fun rec frame => Holds dir rec frame.payload) (recordsAt id 0 frames)
        frames := by
  obtain ⟨rest, hdecoded, hstop⟩ := h.ends
  have hsmall : (framed frames).length < 2 ^ 32 := by
    have hlength := congrArg List.length hdecoded
    rw [length_decodedBytes, List.length_append] at hlength
    have := h.length_lt
    omega
  obtain ⟨f, hopen, hrecords, hpayloads⟩ := openAt_readsBack id h.ne_nil hdecoded hstop hsmall
  refine ⟨?_, ?_⟩
  · rw [hread, readBlkFile, hopen]
    exact congrArg Except.ok hrecords
  · have hheaders := headerRaw_recordsAt id 0 frames
    rw [List.forall₂_iff_zip] at hpayloads hheaders ⊢
    refine ⟨hpayloads.1, fun hmem => ?_⟩
    obtain ⟨hheader, hid⟩ := hheaders.2 hmem
    refine ⟨?_, hheader⟩
    rw [blockBytesDirect, openBlkFile, hid, blkFileName_of_parse hname, hread, hopen]
    exact hpayloads.2 hmem

end File

/-! ## The directory -/

section Directory

variable {dir : BlocksDir} {frames : UInt32 → List BlkFrame} {files : List (UInt32 × List Char)}
  {rec : BlkRecord} {raw raw' : RawBlock}

/-- The records of the files found, in the order of the numbers. -/
def foundRecords (frames : UInt32 → List BlkFrame) (files : List (UInt32 × List Char)) :
    List (List BlkRecord) :=
  files.map fun file => recordsAt file.1 0 (frames file.1)

theorem Holds.unique (h : Holds dir rec raw) (h' : Holds dir rec raw') : raw = raw' :=
  Except.ok.inj (h.bytes.symm.trans h'.bytes)

theorem WrittenDir.exists_files (h : WrittenDir dir frames) :
    ∃ files, discoverBlkFiles (some dir) = .ok files := by
  obtain ⟨e, he, hsome⟩ := h.listed
  obtain ⟨id, hid⟩ := Option.isSome_iff_exists.mp hsome
  rw [discoverBlkFiles]
  refine ⟨_, if_neg fun hempty => ?_⟩
  have hmem : (id, e.1) ∈ dir.filterMap fun e => (parseBlkName e.1).map fun id => (id, e.1) :=
    List.mem_filterMap.mpr ⟨e, he, by rw [hid, Option.map_some]⟩
  rw [← List.mem_mergeSort, hempty] at hmem
  cases hmem

theorem WrittenDir.file (h : WrittenDir dir frames)
    (hfound : discoverBlkFiles (some dir) = .ok files) {file : UInt32 × List Char}
    (hfile : file ∈ files) :
    readBlkFile file.1 (dir.read file.2) (dir.read xorDatName) =
        BlkFile.ofRecords (recordsAt file.1 0 (frames file.1)) ∧
      List.Forall₂ (fun rec frame => Holds dir rec frame.payload)
        (recordsAt file.1 0 (frames file.1)) (frames file.1) := by
  obtain ⟨e, he, hname, heq⟩ := (mem_discoverBlkFiles hfound).mp hfile
  obtain ⟨raw, hread, hwritten⟩ := h.written e he file.1 hname
  rw [heq] at hname hread
  exact hwritten.holds hread hname

theorem WrittenDir.readBlocksDir_eq (h : WrittenDir dir frames)
    (hfound : discoverBlkFiles (some dir) = .ok files) :
    readBlocksDir (some dir) = .ok ((foundRecords frames files).map BlkFile.ofRecords) := by
  rw [readBlocksDir, hfound, foundRecords, List.map_map]
  exact congrArg Except.ok (List.map_congr_left fun file hfile => (h.file hfound hfile).1)

/-- Every record is that of a block written. -/
theorem WrittenDir.block_of_record (h : WrittenDir dir frames)
    (hfound : discoverBlkFiles (some dir) = .ok files)
    (hrec : rec ∈ (foundRecords frames files).flatten) :
    ∃ raw ∈ storedBlocks dir frames, Holds dir rec raw := by
  obtain ⟨records, hrecords, hmem⟩ := List.mem_flatten.mp hrec
  obtain ⟨file, hfile, rfl⟩ := List.mem_map.mp hrecords
  obtain ⟨frame, hframe, hholds⟩ := exists_part (h.file hfound hfile).2 hmem
  obtain ⟨e, he, hname, -⟩ := (mem_discoverBlkFiles hfound).mp hfile
  exact ⟨frame.payload, List.mem_flatMap.mpr
    ⟨file.1, List.mem_filterMap.mpr ⟨e, he, hname⟩, List.mem_map_of_mem hframe⟩, hholds⟩

/-- Every block written has its record. -/
theorem WrittenDir.record_of_block (h : WrittenDir dir frames)
    (hfound : discoverBlkFiles (some dir) = .ok files) (hraw : raw ∈ storedBlocks dir frames) :
    ∃ rec ∈ (foundRecords frames files).flatten, Holds dir rec raw := by
  obtain ⟨id, hid, hmem⟩ := List.mem_flatMap.mp hraw
  obtain ⟨frame, hframe, rfl⟩ := List.mem_map.mp hmem
  obtain ⟨e, he, hname⟩ := List.mem_filterMap.mp hid
  have hfile : (id, e.1) ∈ files := (mem_discoverBlkFiles hfound).mpr ⟨e, he, hname, rfl⟩
  obtain ⟨rec, hrec, hholds⟩ := exists_part (h.file hfound hfile).2.flip hframe
  exact ⟨rec, List.mem_flatten.mpr ⟨_, List.mem_map_of_mem hfile, hrec⟩, hholds⟩

theorem length_recordsAt (id : UInt32) (pos : Nat) (frames : List BlkFrame) :
    (recordsAt id pos frames).length = frames.length :=
  (headerRaw_recordsAt id pos frames).length_eq

/-- There are as many records as blocks written. -/
theorem length_foundRecords (hfound : discoverBlkFiles (some dir) = .ok files) :
    (foundRecords frames files).flatten.length = (storedBlocks dir frames).length := by
  have hperm : (files.map Prod.fst).Perm (dir.filterMap fun e => parseBlkName e.1) := by
    rw [discoverBlkFiles] at hfound
    split_ifs at hfound
    obtain rfl := Except.ok.inj hfound
    refine ((List.mergeSort_perm _ _).map Prod.fst).trans (List.Perm.of_eq ?_)
    rw [List.map_filterMap]
    refine List.filterMap_congr fun e _ => ?_
    rw [Option.map_map]
    exact Option.map_id'
  rw [storedBlocks, List.length_flatMap, List.length_flatten, foundRecords, List.map_map]
  simp only [List.length_map]
  rw [← (hperm.map fun id => (frames id).length).sum_nat, List.map_map]
  exact congrArg List.sum (List.map_congr_left fun file _ => length_recordsAt file.1 0 _)

theorem WrittenDir.smallFiles (h : WrittenDir dir frames) : dir.SmallFiles := by
  intro name raw hname hread
  obtain ⟨id, hid⟩ := Option.isSome_iff_exists.mp hname
  obtain ⟨content, hlookup⟩ : ∃ content, dir.lookup name = some content := by
    rw [BlocksDir.read] at hread
    cases hlookup : dir.lookup name with
    | none =>
        rw [hlookup] at hread
        contradiction
    | some content => exact ⟨content, rfl⟩
  obtain ⟨l₁, l₂, rfl, -⟩ := List.lookup_eq_some_iff.mp hlookup
  have hmem : (name, content) ∈ l₁ ++ (name, content) :: l₂ := by simp
  obtain ⟨raw', hread', hwritten⟩ := h.written _ hmem id hid
  obtain rfl := Option.some.inj (hread.symm.trans hread')
  exact hwritten.length_lt

end Directory

/-! ## The heaviest chain written -/

section Parse

variable {W : Type} [AddMonoid W] [LinearOrder W] {env : ParseEnv W} {dir : BlocksDir}
  {frames : UInt32 → List BlkFrame} {files : List (UInt32 × List Char)}
  {chain : List RawBlock}

/-- The records of the blocks written are as the header pass needs them. -/
theorem WrittenDir.readable (h : WrittenDir dir frames)
    (hfound : discoverBlkFiles (some dir) = .ok files)
    (hheaviest : HeaviestOf env.digests env.work (storedBlocks dir frames) chain)
    (hcount : (storedBlocks dir frames).length < 2 ^ 32) :
    Readable env.digests dir (foundRecords frames files) where
  small := h.smallFiles
  read := h.readBlocksDir_eq hfound
  count := by
    rw [length_foundRecords hfound]
    exact hcount
  acyclic := by
    refine fun a hcircle => hheaviest.acyclic a (hcircle.lift id ?_)
    rintro b c ⟨rec, hrec, rfl, rfl⟩
    obtain ⟨raw, hraw, hholds⟩ := h.block_of_record hfound hrec
    exact ⟨raw, hraw, (BlkRecord.hash_eq hholds.header).symm,
      (BlkRecord.prevHash_eq hholds.header).symm⟩
  distinct := by
    intro rec hrec rec' hrec' hhash
    obtain ⟨raw, hraw, hholds⟩ := h.block_of_record hfound hrec
    obtain ⟨raw', hraw', hholds'⟩ := h.block_of_record hfound hrec'
    rw [BlkRecord.hash_eq hholds.header, BlkRecord.hash_eq hholds'.header] at hhash
    rw [hholds.header, hholds'.header, hheaviest.distinct raw hraw raw' hraw' hhash]
  nonzero := by
    intro rec hrec
    obtain ⟨raw, hraw, hholds⟩ := h.block_of_record hfound hrec
    rw [BlkRecord.hash_eq hholds.header]
    exact hheaviest.nonzero raw hraw

/-- The first block of the chain is among the blocks written. -/
theorem WrittenDir.rooted (h : WrittenDir dir frames)
    (hfound : discoverBlkFiles (some dir) = .ok files)
    (hheaviest : HeaviestOf env.digests env.work (storedBlocks dir frames) chain) :
    Rooted (foundRecords frames files) := by
  have hfirst : chain[0]? = some _ :=
    List.getElem?_eq_getElem (List.length_pos_iff.mpr hheaviest.ne_nil)
  obtain ⟨rec, hrec, hholds⟩ :=
    h.record_of_block hfound (hheaviest.subset _ (List.mem_of_getElem? hfirst))
  refine ⟨rec, hrec, ?_⟩
  rw [BlkRecord.prevHash_eq hholds.header]
  exact hheaviest.linked.root _ hfirst

/-- The chain the index leads to is the one heaviest chain written. -/
theorem HeaviestStored.eq_of_heaviestOf {index : ChainIndex} {stored : List RawBlock}
    (h : WrittenDir dir frames) (hfound : discoverBlkFiles (some dir) = .ok files)
    (hheaviest : HeaviestOf env.digests env.work (storedBlocks dir frames) chain)
    (hstored : HeaviestStored env.digests env.work dir (foundRecords frames files).flatten index
      stored) : stored = chain := by
  by_contra hne
  have hwritten : ∀ raw ∈ stored, raw ∈ storedBlocks dir frames := by
    intro raw hraw
    obtain ⟨rec, hrec, hholds⟩ := hstored.recorded raw hraw
    obtain ⟨raw', hraw', hholds'⟩ := h.block_of_record hfound hrec
    rwa [hholds.unique hholds']
  have hrecorded : RecordedChain env.digests dir (foundRecords frames files).flatten chain :=
    ⟨hheaviest.linked, hheaviest.ne_nil,
      fun raw hraw => h.record_of_block hfound (hheaviest.subset raw hraw)⟩
  have hlighter := hheaviest.heaviest stored hstored.linked hstored.ne_nil hwritten hne
  exact absurd (hstored.heaviest chain hrecorded) (not_le_of_gt hlighter)

/-- For every directory whose blk files all read, whatever else is in them, with any key
and in any order of the records, and whatever the workers' order: where some record is the
first block of a chain, `build_chain_index` returns an index that leads to a chain of blocks
on disk that no other chain on disk outweighs, and that chain is what the parse makes its
output of; otherwise the parse reports that there are no records and leaves the store. -/
theorem runParse_fromDisk (env : ParseEnv W) (dir : BlocksDir) (files : List (List BlkRecord))
    (hreadable : Readable env.digests dir files) (hbytes : ReadsFrom dir env.blockBytes)
    (hfuel : files.flatten.length < env.fuel) :
    (Rooted files → ∃ index stats chain,
      buildChainIndex env.digests env.work env.chainOrders env.fuel
        (files.map BlkFile.ofRecords) = .ok (index, stats) ∧
      HeaviestStored env.digests env.work dir files.flatten index chain ∧
      ParsesChain env dir chain) ∧
    (¬Rooted files → ∀ cfg store, runParseFrom env cfg (some dir) store =
      ⟨.error (.chain (.error .noRecords)), store, []⟩) := by
  constructor
  · intro hroot
    obtain ⟨index, stats, chain, hbuild, hstored⟩ := hreadable.exists_index hroot hfuel
    exact ⟨index, stats, chain, hbuild, hstored,
      hstored.parsesChain hreadable.read hbuild hbytes⟩
  · intro hroot cfg store
    exact hreadable.runParseFrom_of_not_rooted hroot hfuel cfg store

/-- For every way of writing some blocks into numbered files, in any order, with any key
and anything but a complete record behind the last one of each file: a bulk parse makes its
output of the one heaviest chain among them. -/
theorem runParse_of_written (env : ParseEnv W) (dir : BlocksDir)
    (frames : UInt32 → List BlkFrame) (chain : List RawBlock) (hwritten : WrittenDir dir frames)
    (hheaviest : HeaviestOf env.digests env.work (storedBlocks dir frames) chain)
    (hbytes : ReadsFrom dir env.blockBytes) (hcount : (storedBlocks dir frames).length < 2 ^ 32)
    (hfuel : (storedBlocks dir frames).length < env.fuel) : ParsesChain env dir chain := by
  obtain ⟨files, hfound⟩ := hwritten.exists_files
  have hreadable := hwritten.readable hfound hheaviest hcount
  obtain ⟨index, stats, stored, hbuild, hstored⟩ :=
    hreadable.exists_index (hwritten.rooted hfound hheaviest)
      (by rw [length_foundRecords hfound]; exact hfuel)
  obtain rfl := hstored.eq_of_heaviestOf hwritten hfound hheaviest
  exact hstored.parsesChain hreadable.read hbuild hbytes

end Parse

/-! Two obfuscated files: a stale block, the children before their parents, and half a record
behind them. -/

theorem blockMagic_known : isKnownNetworkMagic blockMagic = true := rfl

/-- A frame of the main network. -/
def mainFrame (raw : RawBlock) (hheader : blockHeaderLen ≤ raw.length)
    (hlt : raw.length < 2 ^ 32) : BlkFrame := ⟨blockMagic, raw, blockMagic_known, hheader, hlt⟩

def genesisFrame : BlkFrame := mainFrame sampleGenesis.raw (by decide +kernel) (by decide +kernel)

def sampleWrittenFrames (id : UInt32) : List BlkFrame :=
  if id = 0 then
    [mainFrame sampleOld2.raw (by decide +kernel) (by decide +kernel),
      mainFrame sampleNew1.raw (by decide +kernel) (by decide +kernel)]
  else
    [mainFrame sampleOld1.raw (by decide +kernel) (by decide +kernel), genesisFrame]

def secondBlkName : List Char := "blk00001.dat".toList

def sampleWrittenDir : BlocksDir := [
  (secondBlkName,
    some (xorDecode (framed (sampleWrittenFrames 1) ++ genesisFrame.bytes.take 100) sampleKey)),
  (xorDatName, some sampleKey.toList),
  (firstBlkName,
    some (xorDecode (framed (sampleWrittenFrames 0) ++ genesisFrame.bytes.take 4) sampleKey))]

/-- The file system's answers, as the workers get them. -/
def sampleDiskEnv : ParseEnv Nat where
  digests := treeDigests
  work _ := 2
  chainOrders := ⟨.stored _ _, .stored _ _, .stored _ _⟩
  fuel := 5
  blockBytes l :=
    match blockBytesDirect sampleWrittenDir l with
    | .ok raw => .ok raw
    | .error _ => .error .io
  workerOrder heights := heights.reverse
  workerOrder_perm heights := heights.reverse_perm
  faults := .none
  orders _ := .stored _ _

theorem read_sampleWrittenDir :
    sampleWrittenDir.read secondBlkName = some (xorDecode
        (framed (sampleWrittenFrames 1) ++ genesisFrame.bytes.take 100) sampleKey) ∧
      sampleWrittenDir.read xorDatName = some sampleKey.toList ∧
      sampleWrittenDir.read firstBlkName =
        some (xorDecode (framed (sampleWrittenFrames 0) ++ genesisFrame.bytes.take 4)
          sampleKey) := by
  have hnames : (sampleWrittenDir.map Prod.fst).Nodup := by
    have hne : secondBlkName ≠ xorDatName := by decide
    have hne' : secondBlkName ≠ firstBlkName := by decide
    have hne'' : xorDatName ≠ firstBlkName := by decide
    simp [sampleWrittenDir, hne, hne', hne'']
  exact ⟨read_of_mem hnames (by simp [sampleWrittenDir]),
    read_of_mem hnames (by simp [sampleWrittenDir]),
    read_of_mem hnames (by simp [sampleWrittenDir])⟩

theorem readsFrom_sampleDiskEnv : ReadsFrom sampleWrittenDir sampleDiskEnv.blockBytes := by
  intro loc raw h
  simp only [sampleDiskEnv, h]

/-- A file with the key and a tail that is not a record. -/
theorem Written.of_key {frames : List BlkFrame} {rest : List UInt8} (hne : frames ≠ [])
    (htail : FileTail rest) (hlt : (framed frames ++ rest).length < 2 ^ 32) {key : Bytes 8}
    (hkey : key ≠ zeroBytes 8) :
    Written (xorDecode (framed frames ++ rest) key) (some key.toList) frames where
  ne_nil := hne
  length_lt := by
    rw [xorDecode_eq_mask, Keystream.length_mask]
    exact hlt
  ends := by
    refine ⟨rest, ?_, htail.not_frameAt (framed frames)⟩
    rw [readXorKey_toList hkey, decodedBytes, xorDecode_eq_mask, xorDecode_eq_mask,
      Keystream.mask_mask]

theorem sampleWrittenDir_written : WrittenDir sampleWrittenDir sampleWrittenFrames := by
  have hfirst : parseBlkName firstBlkName = some 0 := by decide
  have hsecond : parseBlkName secondBlkName = some 1 := by decide
  have hxor : parseBlkName xorDatName = none := by decide
  obtain ⟨hread₁, hreadKey, hread₀⟩ := read_sampleWrittenDir
  have hkey : sampleKey ≠ zeroBytes 8 := by decide
  refine ⟨⟨_, List.mem_cons_self, by rw [hsecond]; rfl⟩, ?_⟩
  intro e he id hid
  simp only [sampleWrittenDir, List.mem_cons, List.not_mem_nil, or_false] at he
  rcases he with rfl | rfl | rfl
  · obtain rfl := Option.some.inj (hsecond.symm.trans hid)
    refine ⟨_, hread₁, ?_⟩
    rw [hreadKey]
    exact .of_key (by simp [sampleWrittenFrames])
      (.partialFrame genesisFrame 100 (by decide +kernel)) (by decide +kernel) hkey
  · rw [hxor] at hid
    cases hid
  · obtain rfl := Option.some.inj (hfirst.symm.trans hid)
    refine ⟨_, hread₀, ?_⟩
    rw [hreadKey]
    exact .of_key (by simp [sampleWrittenFrames])
      (.partialFrame genesisFrame 4 (by decide +kernel)) (by decide +kernel) hkey

def sampleBlocks : List RawBlock :=
  [sampleOld1.raw, sampleGenesis.raw, sampleOld2.raw, sampleNew1.raw]

theorem storedBlocks_sampleWrittenDir :
    storedBlocks sampleWrittenDir sampleWrittenFrames = sampleBlocks := by
  have hfirst : parseBlkName firstBlkName = some 0 := by decide
  have hsecond : parseBlkName secondBlkName = some 1 := by decide
  have hxor : parseBlkName xorDatName = none := by decide
  simp [storedBlocks, sampleWrittenDir, hfirst, hsecond, hxor, sampleWrittenFrames, mainFrame,
    genesisFrame, sampleBlocks]

/-- The height at which a block of the tree stands, from one. -/
def sampleRank (h : Hash32) : Nat :=
  if h = Hash32.zero then 0 else if h = blockHash treeDigests sampleGenesis.raw then 1
  else if h = blockHash treeDigests sampleOld2.raw then 3 else 2

theorem sampleBlocks_acyclic (a : Hash32) :
    ¬Relation.TransGen (BlockLink treeDigests sampleBlocks) a a := by
  intro hcircle
  have hranks : ∀ raw ∈ sampleBlocks,
      sampleRank (prevHash raw) < sampleRank (blockHash treeDigests raw) := by decide +kernel
  have hlt : Relation.TransGen (fun m n : Nat => n < m) (sampleRank a) (sampleRank a) := by
    refine hcircle.lift sampleRank ?_
    rintro b c ⟨raw, hraw, rfl, rfl⟩
    exact hranks raw hraw
  rw [Relation.transGen_eq_self] at hlt
  exact lt_irrefl _ hlt

/-- Two blocks of a chain that follow each other. -/
theorem LinkedChain.link {D : Digests} {pre post : List RawBlock} {raw next : RawBlock}
    (h : LinkedChain D (pre ++ raw :: next :: post)) : prevHash next = blockHash D raw :=
  h.linked pre.length raw next (by simp) (by simp)

/-- Of the blocks written the old branch is the longest chain. -/
theorem heaviestOf_oldChain : HeaviestOf treeDigests (fun _ => 2) sampleBlocks oldChain where
  acyclic := sampleBlocks_acyclic
  distinct := by decide +kernel
  nonzero := by decide +kernel
  linked := oldChain_valid.linkedChain
  ne_nil := by decide
  subset := by decide +kernel
  heaviest := by
    intro other hlinked hne hmem hother
    have hroot : ∀ raw ∈ sampleBlocks, prevHash raw = Hash32.zero → raw = sampleGenesis.raw := by
      decide +kernel
    have hchild : ∀ raw ∈ sampleBlocks,
        prevHash raw = blockHash treeDigests sampleGenesis.raw →
          raw = sampleOld1.raw ∨ raw = sampleNew1.raw := by
      decide +kernel
    have hold : ∀ raw ∈ sampleBlocks, prevHash raw = blockHash treeDigests sampleOld1.raw →
        raw = sampleOld2.raw := by
      decide +kernel
    have hnew : ∀ raw ∈ sampleBlocks, prevHash raw ≠ blockHash treeDigests sampleNew1.raw := by
      decide +kernel
    have hend : ∀ raw ∈ sampleBlocks, prevHash raw ≠ blockHash treeDigests sampleOld2.raw := by
      decide +kernel
    -- One or two blocks are less; a third one makes it the old branch, and there is no fourth.
    rcases other with _ | ⟨a, _ | ⟨b, _ | ⟨c, rest⟩⟩⟩
    · contradiction
    · simp [chainWork, oldChain]
    · simp [chainWork, oldChain]
    · obtain rfl := hroot a (hmem a (by simp)) (hlinked.root a rfl)
      have hb := @LinkedChain.link treeDigests [] _ _ _ hlinked
      have hc := @LinkedChain.link treeDigests [_] _ _ _ hlinked
      rcases hchild b (hmem b (by simp)) hb with rfl | rfl
      · obtain rfl := hold c (hmem c (by simp)) hc
        cases rest with
        | nil => exact absurd rfl hother
        | cons d rest =>
            have hd := @LinkedChain.link treeDigests [_, _] _ _ _ hlinked
            exact absurd hd (hend d (hmem d (by simp)))
      · exact absurd hc (hnew c (hmem c (by simp)))

theorem heaviestOf_sampleWrittenDir : HeaviestOf sampleDiskEnv.digests sampleDiskEnv.work
    (storedBlocks sampleWrittenDir sampleWrittenFrames) oldChain := by
  rw [storedBlocks_sampleWrittenDir]
  exact heaviestOf_oldChain

theorem length_sampleWrittenDir :
    (storedBlocks sampleWrittenDir sampleWrittenFrames).length = 4 := by
  rw [storedBlocks_sampleWrittenDir]
  rfl

theorem runParse_fromDisk_sample :
    ∃ files index stats chain, discoverBlkFiles (some sampleWrittenDir) = .ok files ∧
      buildChainIndex treeDigests (fun _ => 2) sampleDiskEnv.chainOrders 5
        ((foundRecords sampleWrittenFrames files).map BlkFile.ofRecords) = .ok (index, stats) ∧
      HeaviestStored treeDigests (fun _ => 2) sampleWrittenDir
        (foundRecords sampleWrittenFrames files).flatten index chain ∧
      ParsesChain sampleDiskEnv sampleWrittenDir chain := by
  obtain ⟨files, hfound⟩ := sampleWrittenDir_written.exists_files
  have hreadable := sampleWrittenDir_written.readable hfound heaviestOf_sampleWrittenDir
    (by rw [length_sampleWrittenDir]; decide)
  have hrooted := sampleWrittenDir_written.rooted hfound heaviestOf_sampleWrittenDir
  obtain ⟨index, stats, chain, hbuild, hstored, hparses⟩ :=
    (runParse_fromDisk sampleDiskEnv sampleWrittenDir _ hreadable readsFrom_sampleDiskEnv
      (by rw [length_foundRecords hfound, length_sampleWrittenDir]; decide)).1 hrooted
  exact ⟨files, index, stats, chain, hfound, hbuild, hstored, hparses⟩

theorem runParse_of_written_sample :
    WrittenDir sampleWrittenDir sampleWrittenFrames ∧
      ParsesChain sampleDiskEnv sampleWrittenDir oldChain :=
  ⟨sampleWrittenDir_written, runParse_of_written sampleDiskEnv _ sampleWrittenFrames _
    sampleWrittenDir_written heaviestOf_sampleWrittenDir readsFrom_sampleDiskEnv
    (by rw [length_sampleWrittenDir]; decide) (by rw [length_sampleWrittenDir]; decide)⟩

end Bidx
