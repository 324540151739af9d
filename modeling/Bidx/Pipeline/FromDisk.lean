import Bidx.Parser.TruncatedHistory
import Bidx.Pipeline.Resume
import Bidx.Pipeline.StoredBlocks

/-!
# A bulk parse of a directory

The stages of `run_parse` composed from the bytes on disk: the header pass over the blk
files, the workers that read the blocks again, and the ordered consumer.  The blocks of
the index are a chain of blocks on disk, and none of them is heavier
(`HeaviestStored`); a parse that returns leaves the replay of its blocks in the store and
their rows in the part files.  Where no record on disk begins a chain there is no index.
-/

namespace Bidx

/-- `run_parse` on a blocks directory. -/
def runParseFrom {W : Type} [AddMonoid W] [LinearOrder W] (env : ParseEnv W) (cfg : ParseConfig)
    (dir : Option BlocksDir) (store : UtxoStore) : ParseRun :=
  match readBlocksDir dir with
  | .error e => ⟨.error (.chain (.error e)), store, []⟩
  | .ok files => runParse env cfg files store

/-- The workers' `block_bytes` reads the directory where reading succeeds. -/
def ReadsFrom (dir : BlocksDir) (blockBytes : BlockLocation → Except BlkError (List UInt8)) :
    Prop :=
  ∀ loc raw, blockBytesDirect dir loc = .ok raw → blockBytes loc = .ok raw

/-- The work of the headers of a chain. -/
def chainWork {W : Type} [AddMonoid W] (work : BlockHeader → W) (chain : List RawBlock) : W :=
  (chain.map fun raw => work (BlockHeader.parse (headerOf raw))).sum

/-- A chain of blocks that are on disk. -/
structure RecordedChain (D : Digests) (dir : BlocksDir) (records : List BlkRecord)
    (chain : List RawBlock) : Prop where
  linked : LinkedChain D chain
  ne_nil : chain ≠ []
  recorded : ∀ raw ∈ chain, ∃ rec ∈ records, Holds dir rec raw

/-- The chain of the blocks an index leads to, and that no chain on disk is heavier. -/
structure HeaviestStored {W : Type} [AddMonoid W] [LinearOrder W] (D : Digests)
    (work : BlockHeader → W) (dir : BlocksDir) (records : List BlkRecord) (index : ChainIndex)
    (chain : List RawBlock) : Prop extends RecordedChain D dir records chain where
  located : List.Forall₂ (fun location raw => blockBytesDirect dir location = .ok raw)
    index.byHeight chain
  heaviest : ∀ other, RecordedChain D dir records other →
    chainWork work other ≤ chainWork work chain

/-- What a bulk parse of the directory makes of a chain.  Over the table of the blocks below
its range, a parse that returns leaves the table of the blocks below its end and has pushed
the rows of the range, which are what the part files of the range then hold in whatever
output directory; without a fault it returns if and only if every block of the range
parses. -/
def ParsesChain {W : Type} [AddMonoid W] [LinearOrder W] (env : ParseEnv W) (dir : BlocksDir)
    (chain : List RawBlock) : Prop :=
  ∀ (cfg : ParseConfig) (store : UtxoStore) (start endHeight : Nat),
    start = min cfg.start (chain.length - 1) →
    endHeight = min (cfg.endHeight.getD chain.length) chain.length → start < endHeight →
    KeepsAll env.digests chain cfg → store.Bulk →
    store.db.utxo = replay env.digests (chain.take start) →
    let run := runParseFrom env cfg (some dir) store
    (run.result = .ok () →
      run.store.db = store.db.withUtxo (replay env.digests (chain.take endHeight)) ∧
      pushes run.sink = (filledRange enrich env.digests chain start store.db.utxo
        (endHeight - start)).map (fun e => (e.1 / cfg.blocksPerPart, e.2)) ∧
      ∀ (out : OutDir) (p : Nat), out.after run.sink p =
        if p ∈ partsOf cfg.blocksPerPart start endHeight then
          partRows cfg.blocksPerPart p (filledRange enrich env.digests chain start
            store.db.utxo (endHeight - start))
        else out p) ∧
    (env.faults = .none → (run.result = .ok () ↔ ∀ height, start ≤ height →
      height < endHeight → ∃ block, chainBlock env.digests chain height = some block))

/-! ## From hashes to blocks -/

section Blocks

variable {W : Type} {D : Digests} {work : BlockHeader → W} {dir : BlocksDir}
  {records : List BlkRecord} {chain : List RawBlock} {raw : RawBlock}

/-- No two headers among the records have one hash. -/
def DistinctHeaders (D : Digests) (records : List BlkRecord) : Prop :=
  ∀ rec ∈ records, ∀ rec' ∈ records, rec.hash D = rec'.hash D → rec.headerRaw = rec'.headerRaw

theorem BlkRecord.prevHash_eq {rec : BlkRecord} (h : rec.headerRaw = headerOf raw) :
    rec.header.prevHash = prevHash raw := by
  rw [BlkRecord.header, h, prevHash]

/-- The record first seen under the hash of a block on disk has its header. -/
theorem firstSeen_blockHash (hdistinct : DistinctHeaders D records)
    (hraw : ∃ rec ∈ records, Holds dir rec raw) :
    ∃ rec, firstSeen D records (blockHash D raw) = some rec ∧ rec.headerRaw = headerOf raw := by
  obtain ⟨rec, hrec, -, hheader⟩ := hraw
  obtain ⟨first, hfirst⟩ : ∃ first, firstSeen D records (rec.hash D) = some first :=
    firstSeen_isSome hrec
  obtain ⟨hmem, hhash⟩ := firstSeen_eq_some hfirst
  rw [BlkRecord.hash_eq hheader] at hfirst
  exact ⟨first, hfirst, (hdistinct first hmem rec hrec hhash).trans hheader⟩

theorem recordParent_blockHash (hdistinct : DistinctHeaders D records)
    (hraw : ∃ rec ∈ records, Holds dir rec raw) :
    recordParent D records (blockHash D raw) =
      some (if prevHash raw = Hash32.zero then none else some (prevHash raw)) := by
  obtain ⟨rec, hrec, hheader⟩ := firstSeen_blockHash hdistinct hraw
  rw [recordParent, hrec, Option.map_some, BlkRecord.prevHash_eq hheader]

/-- A recorded chain is a branch of the records' forest, up to each of its blocks. -/
theorem RecordedChain.branch_take (h : RecordedChain D dir records chain)
    (hdistinct : DistinctHeaders D records) {k : Nat} (hraw : chain[k]? = some raw) :
    ParentForest.Branch (recordParent D records) (blockHash D raw)
      ((chain.take (k + 1)).map (blockHash D)) := by
  have hparent := recordParent_blockHash hdistinct (h.recorded raw (List.mem_of_getElem? hraw))
  rw [List.take_add_one, hraw, List.map_append]
  induction k generalizing raw with
  | zero =>
      rw [if_pos (h.linked.root raw hraw)] at hparent
      exact .root hparent
  | succ k ih =>
      have hlt : k + 1 < chain.length := (List.getElem?_eq_some_iff.mp hraw).1
      have hprev : chain[k]? = some _ := List.getElem?_eq_getElem (by omega)
      have hmem := List.mem_of_getElem? hprev
      rw [h.linked.linked k _ raw hprev hraw, if_neg (h.linked.hash_ne_zero _ hmem)] at hparent
      have hbranch := ih hprev (recordParent_blockHash hdistinct (h.recorded _ hmem))
      rw [List.take_add_one, hprev, List.map_append]
      exact .child hparent hbranch

theorem RecordedChain.branch (h : RecordedChain D dir records chain)
    (hdistinct : DistinctHeaders D records) :
    ∃ tip, ParentForest.Branch (recordParent D records) tip (chain.map (blockHash D)) := by
  have hpos := List.length_pos_iff.mpr h.ne_nil
  have hlast : chain[chain.length - 1]? = some _ := List.getElem?_eq_getElem (by omega)
  have hbranch := h.branch_take hdistinct hlast
  rw [List.take_of_length_le (by omega)] at hbranch
  exact ⟨_, hbranch⟩

variable [AddMonoid W]

theorem recordWork_eq_chainWork (hdistinct : DistinctHeaders D records)
    (hrecorded : ∀ raw ∈ chain, ∃ rec ∈ records, Holds dir rec raw) :
    recordWork D work records (chain.map (blockHash D)) = chainWork work chain := by
  rw [recordWork, chainWork, List.map_map]
  congr 1
  refine List.map_congr_left fun raw hraw => ?_
  obtain ⟨rec, hrec, hheader⟩ := firstSeen_blockHash hdistinct (hrecorded raw hraw)
  rw [Function.comp_apply, hrec, Option.map_some, Option.getD_some, BlkRecord.header, hheader]

/-- What lies between two lists, element by element. -/
theorem exists_forall₂ {α β γ : Type} {R : α → β → Prop} {P : α → γ → Prop} {Q : β → γ → Prop}
    {as : List α} {bs : List β} (h : List.Forall₂ R as bs)
    (hbetween : ∀ a b, R a b → ∃ c, P a c ∧ Q b c) :
    ∃ cs, List.Forall₂ P as cs ∧ List.Forall₂ Q bs cs := by
  induction h with
  | nil => exact ⟨[], .nil, .nil⟩
  | cons hab _ ih =>
      obtain ⟨c, hp, hq⟩ := hbetween _ _ hab
      obtain ⟨cs, hps, hqs⟩ := ih
      exact ⟨c :: cs, .cons hp hps, .cons hq hqs⟩

variable [LinearOrder W] {hashes : List Hash32} {index : ChainIndex} {stats : ChainBuildStats}

omit [AddMonoid W] [LinearOrder W] in
/-- Blocks of the records first seen under some hashes have these hashes. -/
theorem recorded_of_forall₂ (h : List.Forall₂ (fun a raw => ∃ rec,
      firstSeen D records a = some rec ∧ Holds dir rec raw) hashes chain) :
    hashes = chain.map (blockHash D) ∧ ∀ raw ∈ chain, ∃ rec ∈ records, Holds dir rec raw := by
  induction h with
  | nil => exact ⟨rfl, fun _ hmem => absurd hmem List.not_mem_nil⟩
  | cons hraw _ ih =>
      obtain ⟨rec, hrec, hholds⟩ := hraw
      obtain ⟨hmem, hhash⟩ := firstSeen_eq_some hrec
      refine ⟨?_, List.forall_mem_cons.mpr ⟨⟨rec, hmem, hholds⟩, ih.2⟩⟩
      rw [List.map_cons, ← ih.1, ← BlkRecord.hash_eq hholds.header, hhash]

/-- The hashes of the main chain are those of blocks that name their parents. -/
theorem IsMainChain.linkedChain (h : IsMainChain D work records (chain.map (blockHash D)) index
      stats)
    (hdistinct : DistinctHeaders D records) (hcount : records.length < 2 ^ 32)
    (hnonzero : ∀ rec ∈ records, rec.hash D ≠ Hash32.zero)
    (hrecorded : ∀ raw ∈ chain, ∃ rec ∈ records, Holds dir rec raw) :
    LinkedChain D chain where
  length_lt := by
    have hblocks := h.orphans
    rw [h.uniqueBlocks, List.length_map] at hblocks
    have hdedup := (List.dedup_sublist (records.map (BlkRecord.hash D))).length_le
    rw [List.length_map] at hdedup
    omega
  hash_ne_zero := by
    intro raw hraw
    obtain ⟨rec, hrec, hholds⟩ := hrecorded raw hraw
    rw [← BlkRecord.hash_eq hholds.header]
    exact hnonzero rec hrec
  root := by
    intro raw hraw
    have hfirst : (chain.map (blockHash D))[0]? = some (blockHash D raw) := by
      rw [List.getElem?_map, hraw, Option.map_some]
    obtain ⟨rec, hrec, hzero⟩ := h.root _ hfirst
    obtain ⟨rec', hrec', hheader⟩ :=
      firstSeen_blockHash hdistinct (hrecorded raw (List.mem_of_getElem? hraw))
    obtain rfl := Option.some.inj (hrec.symm.trans hrec')
    rw [← BlkRecord.prevHash_eq hheader, hzero]
  linked := by
    intro height raw next hraw hnext
    have hhash : (chain.map (blockHash D))[height + 1]? = some (blockHash D next) := by
      rw [List.getElem?_map, hnext, Option.map_some]
    obtain ⟨rec, hrec, hparent⟩ := h.linked _ _ hhash
    obtain ⟨rec', hrec', hheader⟩ :=
      firstSeen_blockHash hdistinct (hrecorded next (List.mem_of_getElem? hnext))
    obtain rfl := Option.some.inj (hrec.symm.trans hrec')
    rw [List.getElem?_map, hraw, Option.map_some, BlkRecord.prevHash_eq hheader] at hparent
    exact (Option.some.inj hparent).symm

/-- The blocks under the locations of the index are the heaviest chain on disk. -/
theorem IsMainChain.heaviestStored (h : IsMainChain D work records hashes index stats)
    (hholds : ∀ rec ∈ records, ∃ raw, Holds dir rec raw) (hdistinct : DistinctHeaders D records)
    (hcount : records.length < 2 ^ 32) (hnonzero : ∀ rec ∈ records, rec.hash D ≠ Hash32.zero) :
    ∃ chain, HeaviestStored D work dir records index chain := by
  obtain ⟨chain, hblocks, hlocated⟩ := exists_forall₂
    (P := fun a raw => ∃ rec, firstSeen D records a = some rec ∧ Holds dir rec raw)
    (Q := fun location raw => blockBytesDirect dir location = .ok raw) h.byHeight <| by
      rintro a location ⟨rec, hrec, rfl⟩
      obtain ⟨raw, hraw⟩ := hholds rec (firstSeen_eq_some hrec).1
      exact ⟨raw, ⟨rec, hrec, hraw⟩, hraw.bytes⟩
  obtain ⟨rfl, hrecorded⟩ := recorded_of_forall₂ hblocks
  refine ⟨chain, ⟨h.linkedChain hdistinct hcount hnonzero hrecorded, ?_, hrecorded⟩, hlocated, ?_⟩
  · rintro rfl
    have htip := h.tipHash
    cases htip
  · intro other hother
    obtain ⟨tip, hbranch⟩ := hother.branch hdistinct
    have hle := h.heaviest tip _ hbranch
    rwa [recordWork_eq_chainWork hdistinct hother.recorded,
      recordWork_eq_chainWork hdistinct hrecorded] at hle

end Blocks

/-! ## The index of a directory -/

section Directory

variable {W : Type} [AddMonoid W] [LinearOrder W] {env : ParseEnv W} {cfg : ParseConfig}
  {dir : BlocksDir} {files : List (List BlkRecord)} {index : ChainIndex}
  {chain : List RawBlock} {start endHeight : Nat} {store : UtxoStore}

/-- What the header pass needs of the records it reads. -/
structure Readable (D : Digests) (dir : BlocksDir) (files : List (List BlkRecord)) : Prop where
  small : dir.SmallFiles
  read : readBlocksDir (some dir) = .ok (files.map BlkFile.ofRecords)
  count : files.flatten.length < 2 ^ 32
  acyclic : ∀ a, ¬Relation.TransGen (PrevLink D files.flatten) a a
  distinct : DistinctHeaders D files.flatten
  nonzero : ∀ rec ∈ files.flatten, rec.hash D ≠ Hash32.zero

/-- Some record on disk is the first block of a chain. -/
def Rooted (files : List (List BlkRecord)) : Prop :=
  ∃ rec ∈ files.flatten, rec.header.prevHash = Hash32.zero

/-- The index of a directory leads to the heaviest chain of blocks in it. -/
theorem Readable.exists_index (h : Readable env.digests dir files) (hroot : Rooted files)
    (hfuel : files.flatten.length < env.fuel) :
    ∃ index stats chain, buildChainIndex env.digests env.work env.chainOrders env.fuel
        (files.map BlkFile.ofRecords) = .ok (index, stats) ∧
      HeaviestStored env.digests env.work dir files.flatten index chain := by
  obtain ⟨rec, hrec, hzero⟩ := hroot
  obtain ⟨scan, cum, hres⟩ :=
    exists_resolved env.digests env.work env.chainOrders h.acyclic hfuel
  obtain ⟨tipHash, w, hashes, htip, hbranch, hmax⟩ :=
    hres.exists_tip (branch_of_root h.distinct hrec hzero)
  obtain ⟨index, stats, hbuild, hmain⟩ := isMainChain_of_tip hres htip hbranch hmax
  obtain ⟨chain, hstored⟩ := hmain.heaviestStored
    (fun _ hrec => readBlocksDir_holds h.small h.read hrec) h.distinct h.count h.nonzero
  exact ⟨index, stats, chain, hbuild, hstored⟩

/-- Reading a directory finds a file, or it fails. -/
theorem readBlocksDir_ne_nil {found : List BlkFile} (h : readBlocksDir (some dir) = .ok found) :
    found ≠ [] := by
  rintro rfl
  rw [readBlocksDir] at h
  cases hfound : discoverBlkFiles (some dir) with
  | error e =>
      rw [hfound] at h
      contradiction
  | ok entries =>
      rw [hfound] at h
      obtain rfl : entries = [] := List.map_eq_nil_iff.mp (Except.ok.inj h)
      rw [discoverBlkFiles] at hfound
      split_ifs at hfound with hempty
      exact hempty (Except.ok.inj hfound)

/-- Without a first block the parse ends before the store is touched. -/
theorem Readable.runParseFrom_of_not_rooted (h : Readable env.digests dir files)
    (hroot : ¬Rooted files) (hfuel : files.flatten.length < env.fuel) (cfg : ParseConfig)
    (store : UtxoStore) :
    runParseFrom env cfg (some dir) store =
      ⟨.error (.chain (.error .noRecords)), store, []⟩ := by
  have hnot : ¬HasRoot env.digests files.flatten := by
    rintro ⟨rec, hfirst, hzero⟩
    exact hroot ⟨rec, (firstSeen_eq_some hfirst).1, hzero⟩
  have hfiles : files ≠ [] := by
    rintro rfl
    exact readBlocksDir_ne_nil h.read rfl
  have hbuild := buildChainIndex_of_not_hasRoot env.digests env.work env.chainOrders files
    h.acyclic hfiles hnot env.fuel hfuel
  rw [runParseFrom, h.read]
  simp only [runParse, hbuild]

/-! ## The stages over it -/

omit [AddMonoid W] [LinearOrder W] in
/-- A worker sends the block of a height that parses. -/
theorem parseHeight_of_chainBlock
    (hlocated : List.Forall₂ (fun location raw => env.blockBytes location = .ok raw)
      index.byHeight chain)
    (horphans : KeepsAll env.digests chain cfg) {height : Nat} {block : FullBlock}
    (hblock : chainBlock env.digests chain height = some block) :
    parseHeight env cfg index height = .ok (.block height block) := by
  obtain ⟨raw, hraw, hparse⟩ := chainBlock_eq_some.mp hblock
  obtain ⟨hlen, hget⟩ := List.forall₂_iff_get.mp hlocated
  obtain ⟨hlt, rfl⟩ := List.getElem?_eq_some_iff.mp hraw
  have hbytes := hget height (hlen ▸ hlt) hlt
  have hkept := horphans _ (List.getElem_mem hlt)
  rw [blockHash, headerOf] at hkept
  have hsize := (parseBlockFull_shape hparse).2.2.2
  rw [parseAt] at hparse
  rw [parseHeight, List.getElem?_eq_getElem (hlen ▸ hlt)]
  rw [List.get_eq_getElem, List.get_eq_getElem] at hbytes
  simp only [hbytes]
  rw [parsePayload, if_neg (by omega)]
  simp only
  rw [if_neg hkept]
  rw [blockHash, headerOf] at hparse
  rw [hparse]

omit [AddMonoid W] [LinearOrder W] in
/-- The stage sends the blocks of heights that all parse. -/
theorem parseStage_of_chainBlocks
    (hlocated : List.Forall₂ (fun location raw => env.blockBytes location = .ok raw)
      index.byHeight chain)
    (horphans : KeepsAll env.digests chain cfg) {heights : List Nat}
    (hblocks : ∀ height ∈ heights, ∃ block, chainBlock env.digests chain height = some block) :
    (parseStage env cfg index heights).2 = .ok () := by
  induction heights with
  | nil => rfl
  | cons height heights ih =>
      obtain ⟨block, hblock⟩ := hblocks height List.mem_cons_self
      rw [parseStage, parseHeight_of_chainBlock hlocated horphans hblock]
      exact ih fun height hmem => hblocks height (List.mem_cons_of_mem _ hmem)

omit [AddMonoid W] [LinearOrder W] in
/-- Every height of the index leads to the block of that height. -/
theorem located_byHeight
    (hlocated : List.Forall₂ (fun location raw => env.blockBytes location = .ok raw)
      index.byHeight chain) (height : Nat) (l : BlockLocation)
    (hl : index.byHeight[height]? = some l) :
    ∃ raw, chain[height]? = some raw ∧ env.blockBytes l = .ok raw := by
  obtain ⟨hlen, hget⟩ := List.forall₂_iff_get.mp hlocated
  obtain ⟨hk, rfl⟩ := List.getElem?_eq_some_iff.mp hl
  exact ⟨_, List.getElem?_eq_getElem (hlen ▸ hk), hget height hk (hlen ▸ hk)⟩

omit [AddMonoid W] [LinearOrder W] in
/-- Without a fault the stages return when all blocks of the range parse. -/
theorem parseOver_returns
    (hlocated : List.Forall₂ (fun location raw => env.blockBytes location = .ok raw)
      index.byHeight chain)
    (horphans : KeepsAll env.digests chain cfg) (hlt : start < endHeight) (hbulk : store.Bulk)
    (hfaults : env.faults = .none)
    (hblocks : ∀ height, start ≤ height → height < endHeight →
      ∃ block, chainBlock env.digests chain height = some block) :
    (parseOver env cfg index start endHeight store).result = .ok () := by
  have hperm := env.workerOrder_perm (List.range' start (endHeight - start))
  have hstage := parseStage_of_chainBlocks hlocated horphans fun height hmem => by
    have hrange := List.mem_range'_1.mp (hperm.mem_iff.mp hmem)
    exact hblocks height (by omega) (by omega)
  obtain ⟨hheights, hitems⟩ := parseStage_eq_ok horphans (located_byHeight hlocated) hstage
  rw [← hheights] at hperm
  let consume : ConsumeConfig := ⟨endHeight, cfg.blocksPerPart, env.faults, env.orders⟩
  have harrivals : Arrivals start consume.endHeight _ := ⟨hlt, hperm⟩
  obtain ⟨c, hconsumed, -⟩ := consumeOrdered_returns hbulk (fun _ _ => chainBlock_shape)
    (show consume.faults = .none from hfaults) harrivals hitems
  rw [parseOver, hstage]
  simp only [consume] at hconsumed
  rw [hconsumed]

/-- The parse of a directory whose index leads to `chain`. -/
theorem HeaviestStored.parsesChain {stats : ChainBuildStats}
    (h : HeaviestStored env.digests env.work dir files.flatten index chain)
    (hread : readBlocksDir (some dir) = .ok (files.map BlkFile.ofRecords))
    (hbuild : buildChainIndex env.digests env.work env.chainOrders env.fuel
      (files.map BlkFile.ofRecords) = .ok (index, stats))
    (hbytes : ReadsFrom dir env.blockBytes) : ParsesChain env dir chain := by
  rintro cfg store start endHeight hstart hend hlt horphans hbulk hutxo
  have hlocated : List.Forall₂ (fun location raw => env.blockBytes location = .ok raw)
      index.byHeight chain := h.located.imp fun _ _ => hbytes _ _
  have hrange : parseRange cfg index = .ok (start, endHeight) := by
    have hpos := List.length_pos_iff.mpr h.ne_nil
    have htip : index.tipHeight = some (chain.length - 1) := by
      rw [ChainIndex.tipHeight, hlocated.length_eq, if_neg (by omega)]
    rw [parseRange, htip]
    dsimp only
    rw [Nat.sub_add_cancel hpos, ← hstart, ← hend, if_neg (by omega)]
  have hrun : runParseFrom env cfg (some dir) store =
      parseOver env cfg index start endHeight store := by
    rw [runParseFrom, hread]
    simp only [runParse, hbuild, hrange]
  have hparsed : (parseOver env cfg index start endHeight store).result = .ok () → _ :=
    parseOver_parsedRange (located_byHeight hlocated) horphans hlt hbulk
  dsimp only
  rw [hrun]
  refine ⟨fun hok => ⟨(hparsed hok).db_eq hutxo, (hparsed hok).pushes_eq,
    (hparsed hok).out_eq⟩, fun hfaults => ?_⟩
  exact ⟨fun hok => (hparsed hok).blocks, parseOver_returns hlocated horphans hlt hbulk hfaults⟩

end Directory

end Bidx
