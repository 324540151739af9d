import Bidx.Live.Chain
import Bidx.Parser.MainChain
import Bidx.Parser.RowShape
import Bidx.Pipeline.InOrder
import Bidx.Pipeline.RunParse

/-!
# What a bulk parse leaves

On block files that hold a beginning of a chain, a bulk parse that completes over a
range of heights has applied exactly the chain's blocks of that range, in height
order: it takes the table of the blocks below the range to the table of the blocks
below its end.  The tip record is never touched.
-/

namespace Bidx

open KeyValue

/-! ## The blocks of a range -/

/-- The parsed block at a height of a chain. -/
def chainBlock (D : Digests) (chain : List RawBlock) (height : Nat) : Option FullBlock :=
  match chain[height]? with
  | some raw => (parseAt D raw height).toOption
  | none => none

/-- The table after `count` blocks of the chain from `start` on, applied to `S`. -/
def replayRange (D : Digests) (chain : List RawBlock) (start : Nat) (S : Table) (count : Nat) :
    Table :=
  replayFrom D start S ((chain.drop start).take count)

/-- The rows of a block over a table, with its fees filled in by `fill`. -/
def filled (fill : FullBlock → List UInt64 → FullBlock) (height : Nat) (S : Table)
    (block : FullBlock) : FullBlock × List SpendRow :=
  (fill block (spendResult (UInt32.ofNat height) block S).fees,
    (spendResult (UInt32.ofNat height) block S).spends)

/-- The rows of `count` blocks of the chain from `start` on, in height order, when they
are applied to `S`. -/
def filledRange (fill : FullBlock → List UInt64 → FullBlock) (D : Digests)
    (chain : List RawBlock) (start : Nat) (S : Table) (count : Nat) :
    List (Nat × FullBlock × List SpendRow) :=
  (List.range count).filterMap fun i => (chainBlock D chain (start + i)).map fun block =>
    (start + i, filled fill (start + i) (replayRange D chain start S i) block)

section Range

variable {D : Digests} {chain : List RawBlock} {raw : RawBlock} {start count height : Nat}
  {S : Table} {block : FullBlock}

theorem chainBlock_eq_some :
    chainBlock D chain height = some block ↔
      ∃ raw, chain[height]? = some raw ∧ parseAt D raw height = .ok block := by
  unfold chainBlock
  cases hraw : chain[height]? with
  | none => simp
  | some raw => cases hparse : parseAt D raw height <;> simp [Except.toOption, hparse]

theorem chainBlock_shape (h : chainBlock D chain height = some block) : block.WellShaped := by
  obtain ⟨raw, -, hparse⟩ := chainBlock_eq_some.mp h
  exact parseAt_shape hparse

theorem chainBlock_height (h : chainBlock D chain height = some block) :
    block.blockRow.height = UInt32.ofNat height := by
  obtain ⟨raw, -, hparse⟩ := chainBlock_eq_some.mp h
  exact parseBlockFull_height hparse

theorem chainBlock_lt (h : chainBlock D chain height = some block) : height < chain.length := by
  obtain ⟨raw, hraw, -⟩ := chainBlock_eq_some.mp h
  exact (List.getElem?_eq_some_iff.mp hraw).1

theorem ValidChain.exists_chainBlock (hvalid : ValidChain D chain) (hlt : height < chain.length) :
    ∃ block, chainBlock D chain height = some block := by
  have hraw : chain[height]? = some _ := List.getElem?_eq_getElem hlt
  obtain ⟨block, hparse, -⟩ := hvalid.valid _ _ hraw
  exact ⟨block, chainBlock_eq_some.mpr ⟨_, hraw, hparse⟩⟩

/-- What is known at a block of a valid chain. -/
theorem ValidChain.at_block (hvalid : ValidChain D chain)
    (hblock : chainBlock D chain height = some block) :
    ValidOver (replay D (chain.take height)) block ∧
      replay D (chain.take (height + 1)) =
        blockTable (UInt32.ofNat height) block (replay D (chain.take height)) := by
  obtain ⟨raw, hraw, hparse⟩ := chainBlock_eq_some.mp hblock
  obtain ⟨block', hparse', hover⟩ := hvalid.valid _ _ hraw
  obtain rfl := Except.ok.inj (hparse.symm.trans hparse')
  exact ⟨hover, hvalid.replay_succ hraw hparse⟩

theorem replayRange_succ (D : Digests) (S : Table) (hraw : chain[start + count]? = some raw) :
    replayRange D chain start S (count + 1) =
      tableStep D (start + count) raw (replayRange D chain start S count) := by
  have hdrop : (chain.drop start)[count]? = some raw := by rw [List.getElem?_drop, hraw]
  have hlength : ((chain.drop start).take count).length = count := by
    have hlt : count < (chain.drop start).length := (List.getElem?_eq_some_iff.mp hdrop).1
    rw [List.length_take, Nat.min_eq_left hlt.le]
  rw [replayRange, List.take_add_one, hdrop, Option.toList_some, replayFrom_append, hlength]
  rfl

theorem replayRange_of_block (S : Table)
    (hblock : chainBlock D chain (start + count) = some block) :
    replayRange D chain start S (count + 1) =
      tableAfter (UInt32.ofNat (start + count)) block (replayRange D chain start S count) := by
  obtain ⟨raw, hraw, hparse⟩ := chainBlock_eq_some.mp hblock
  rw [replayRange_succ D S hraw, tableStep_of_parse hparse]

theorem replayRange_of_none (S : Table) (hnone : chainBlock D chain (start + count) = none) :
    replayRange D chain start S (count + 1) = replayRange D chain start S count := by
  cases hraw : chain[start + count]? with
  | none =>
      have hle : (chain.drop start).length ≤ count := by
        have := List.getElem?_eq_none_iff.mp hraw
        rw [List.length_drop]
        omega
      rw [replayRange, List.take_of_length_le (by omega), replayRange, List.take_of_length_le hle]
  | some raw =>
      rw [replayRange_succ D S hraw, tableStep]
      cases hparse : parseAt D raw (start + count) with
      | error e => rfl
      | ok block =>
          have hsome := chainBlock_eq_some.mpr ⟨raw, hraw, hparse⟩
          rw [hnone] at hsome
          contradiction

/-- A range in two pieces. -/
theorem replayRange_add (D : Digests) (chain : List RawBlock) (start : Nat) (S : Table)
    (m n : Nat) :
    replayRange D chain start S (m + n) =
      replayRange D chain (start + m) (replayRange D chain start S m) n := by
  induction n with
  | zero => rfl
  | succ n ih =>
      rw [← Nat.add_assoc]
      cases hblock : chainBlock D chain (start + (m + n)) with
      | none =>
          rw [replayRange_of_none _ hblock, ih, replayRange_of_none _ (by rwa [Nat.add_assoc])]
      | some block =>
          rw [replayRange_of_block _ hblock, ih, replayRange_of_block _ (by rwa [Nat.add_assoc]),
            Nat.add_assoc]

/-- From the table of the blocks below the range. -/
theorem replayRange_replay (D : Digests) (h : start + count ≤ chain.length) :
    replayRange D chain start (replay D (chain.take start)) count =
      replay D (chain.take (start + count)) := by
  induction count with
  | zero => rfl
  | succ count ih =>
      have hraw : chain[start + count]? = some _ := List.getElem?_eq_getElem (by omega)
      rw [replayRange_succ D _ hraw, ih (by omega), ← Nat.add_assoc, replay_take_succ D hraw]

theorem filledRange_succ (fill : FullBlock → List UInt64 → FullBlock) (D : Digests)
    (chain : List RawBlock) (start : Nat) (S : Table) (count : Nat) :
    filledRange fill D chain start S (count + 1) = filledRange fill D chain start S count ++
      ((chainBlock D chain (start + count)).map fun block => (start + count,
        filled fill (start + count) (replayRange D chain start S count) block)).toList := by
  rw [filledRange, List.range_succ, List.filterMap_append]
  cases h : chainBlock D chain (start + count) with
  | none => simp [h, filledRange]
  | some block => simp [h, filledRange]

theorem filledRange_add (fill : FullBlock → List UInt64 → FullBlock) (D : Digests)
    (chain : List RawBlock) (start : Nat) (S : Table) (m n : Nat) :
    filledRange fill D chain start S (m + n) = filledRange fill D chain start S m ++
      filledRange fill D chain (start + m) (replayRange D chain start S m) n := by
  induction n with
  | zero => simp [filledRange]
  | succ n ih =>
      rw [← Nat.add_assoc, filledRange_succ, ih, filledRange_succ, replayRange_add,
        List.append_assoc, Nat.add_assoc start m n]

/-- The first height first. -/
theorem filledRange_cons (fill : FullBlock → List UInt64 → FullBlock)
    (hblock : chainBlock D chain start = some block) (S : Table) (count : Nat) :
    filledRange fill D chain start S (count + 1) = (start, filled fill start S block) ::
      filledRange fill D chain (start + 1) (tableAfter (UInt32.ofNat start) block S) count := by
  have hblock₀ : chainBlock D chain (start + 0) = some block := hblock
  have hone : replayRange D chain start S 1 = tableAfter (UInt32.ofNat start) block S :=
    replayRange_of_block S hblock₀
  have hfirst := filledRange_succ fill D chain start S 0
  rw [hblock₀] at hfirst
  rw [Nat.add_comm, filledRange_add, hone, hfirst]
  rfl

/-- The heights of the rows of a range. -/
theorem filledRange_heights {fill : FullBlock → List UInt64 → FullBlock}
    {e : Nat × FullBlock × List SpendRow}
    (he : e ∈ filledRange fill D chain start S count) :
    start ≤ e.1 ∧ e.1 < start + count ∧ ∃ block, chainBlock D chain e.1 = some block ∧
      e.2 = filled fill e.1 (replayRange D chain start S (e.1 - start)) block := by
  obtain ⟨i, hi, hsome⟩ := List.mem_filterMap.mp he
  obtain ⟨block, hblock, rfl⟩ := Option.map_eq_some_iff.mp hsome
  have hlt := List.mem_range.mp hi
  refine ⟨Nat.le_add_right _ _, by show start + i < start + count; omega, block, hblock, ?_⟩
  show _ = filled fill (start + i) (replayRange D chain start S (start + i - start)) block
  rw [Nat.add_sub_cancel_left]

/-- A valid chain has a row for every height. -/
theorem filledRange_fst (hvalid : ValidChain D chain)
    (fill : FullBlock → List UInt64 → FullBlock) (S : Table) (hlen : start + count ≤ chain.length) :
    (filledRange fill D chain start S count).map Prod.fst = List.range' start count := by
  induction count with
  | zero => rfl
  | succ count ih =>
      obtain ⟨block, hblock⟩ :=
        hvalid.exists_chainBlock (show start + count < chain.length by omega)
      rw [filledRange_succ, hblock, List.map_append, ih (by omega), List.range'_1_concat]
      rfl

/-- Filling in the fees leaves the height of a row alone. -/
theorem filledRange_blockRow {e : Nat × FullBlock × List SpendRow}
    (he : e ∈ filledRange enrich D chain start S count) :
    e.2.1.blockRow.height = UInt32.ofNat e.1 := by
  obtain ⟨-, -, block, hblock, heq⟩ := filledRange_heights he
  rw [heq]
  show block.blockRow.height = _
  exact chainBlock_height hblock

/-- Every height of the range has its row. -/
theorem mem_filledRange {fill : FullBlock → List UInt64 → FullBlock}
    (hle : start ≤ height) (hlt : height < start + count)
    (hblock : chainBlock D chain height = some block) :
    (height, filled fill height (replayRange D chain start S (height - start)) block) ∈
      filledRange fill D chain start S count := by
  have hsum : start + (height - start) = height := by omega
  refine List.mem_filterMap.mpr ⟨height - start, List.mem_range.mpr (by omega), ?_⟩
  rw [hsum, hblock]
  rfl

/-- The rows of one range on two tables, height by height. -/
theorem filledRange_eq_iff {fill : FullBlock → List UInt64 → FullBlock} {T : Table} :
    filledRange fill D chain start S count = filledRange fill D chain start T count ↔
      ∀ height block, start ≤ height → height < start + count →
        chainBlock D chain height = some block →
        filled fill height (replayRange D chain start S (height - start)) block =
          filled fill height (replayRange D chain start T (height - start)) block := by
  constructor
  · intro hrows height block hle hlt hblock
    obtain ⟨e, he, hheight, hrow⟩ : ∃ e ∈ filledRange fill D chain start S count, e.1 = height ∧
        e.2 = filled fill height (replayRange D chain start S (height - start)) block :=
      ⟨_, mem_filledRange hle hlt hblock, rfl, rfl⟩
    rw [hrows] at he
    obtain ⟨-, -, block', hblock', hrow'⟩ := filledRange_heights he
    rw [hheight] at hblock' hrow'
    obtain rfl := Option.some.inj (hblock.symm.trans hblock')
    exact hrow.symm.trans hrow'
  · intro hsame
    refine List.filterMap_congr fun i hi => ?_
    have hlt := List.mem_range.mp hi
    cases hblock : chainBlock D chain (start + i) with
    | none => rfl
    | some block =>
        have hrow := hsame (start + i) block (Nat.le_add_right _ _) (by omega) hblock
        rw [Nat.add_sub_cancel_left] at hrow
        rw [Option.map_some, Option.map_some, hrow]

/-- The store the loop leaves over the blocks of a chain. -/
theorem Output.store_upTo (D : Digests) (chain : List RawBlock) (start blocksPerPart : Nat)
    (o : Output) (count : Nat) :
    (o.upTo blocksPerPart (chainBlock D chain) start count).store =
      o.store.withUtxo (replayRange D chain start o.store.db.utxo count) := by
  induction count with
  | zero => rfl
  | succ count ih =>
      rw [upTo]
      cases hblock : chainBlock D chain (start + count) with
      | none => rw [replayRange_of_none _ hblock, ih]
      | some block =>
          show ((o.upTo _ _ _ _).rotate _ _).store.withUtxo _ = _
          rw [store_rotate, ih, replayRange_of_block _ hblock]
          rfl

theorem Output.pushes_rotate (o : Output) (blocksPerPart height : Nat) :
    pushes (o.rotate blocksPerPart height).sink = pushes o.sink := by
  unfold rotate
  split
  · rfl
  · simp [pushes]

/-- The rows the loop pushes. -/
theorem Output.pushes_upTo (D : Digests) (chain : List RawBlock) (start blocksPerPart : Nat)
    (o : Output) (count : Nat) :
    pushes (o.upTo blocksPerPart (chainBlock D chain) start count).sink = pushes o.sink ++
      (filledRange enrich D chain start o.store.db.utxo count).map fun e =>
        (e.1 / blocksPerPart, e.2) := by
  induction count with
  | zero => simp [upTo, filledRange]
  | succ count ih =>
      rw [upTo, filledRange_succ]
      cases hblock : chainBlock D chain (start + count) with
      | none => simp [ih]
      | some block =>
          have hstore := store_upTo D chain start blocksPerPart o count
          simp only [push, pushes_append, pushes_rotate, ih, store_rotate, hstore, part_rotate]
          simp [pushes, filled, UtxoStore.withUtxo, Db.withUtxo]

end Range

/-! ## The index of a chain's blocks -/

/-- Blocks that name their parents, from a block without one. -/
structure LinkedChain (D : Digests) (chain : List RawBlock) : Prop where
  length_lt : chain.length < 2 ^ 32
  hash_ne_zero : ∀ raw ∈ chain, blockHash D raw ≠ Hash32.zero
  root : ∀ raw, chain[0]? = some raw → prevHash raw = Hash32.zero
  linked : ∀ (height : Nat) (raw next : RawBlock), chain[height]? = some raw →
    chain[height + 1]? = some next → prevHash next = blockHash D raw

theorem ValidChain.linkedChain {D : Digests} {chain : List RawBlock} (h : ValidChain D chain) :
    LinkedChain D chain := ⟨h.length_lt, h.hash_ne_zero, h.root, h.linked⟩

/-- The records are those of the blocks of `chain`, in any order and number. -/
structure HoldBlocks (blockBytes : BlockLocation → Except BlkError (List UInt8))
    (records : List BlkRecord) (chain : List RawBlock) : Prop where
  sound : ∀ rec ∈ records, ∃ raw ∈ chain, rec.headerRaw = headerOf raw ∧
    blockBytes rec.location = .ok raw
  complete : ∀ raw ∈ chain, ∃ rec ∈ records, rec.headerRaw = headerOf raw

/-- The header map knows the blocks of `chain` and nothing else. -/
structure Indexes {W : Type} (D : Digests)
    (blockBytes : BlockLocation → Except BlkError (List UInt8)) (chain : List RawBlock)
    (headers : Headers W) : Prop where
  known : ∀ h, headers.lookup h ≠ none → ∃ raw ∈ chain, h = blockHash D raw
  entry : ∀ raw ∈ chain, ∃ e, headers.lookup (blockHash D raw) = some e ∧
    e.prev = prevHash raw ∧ blockBytes e.location = .ok raw

section Index

variable {W : Type} {D : Digests} {work : BlockHeader → W}
  {blockBytes : BlockLocation → Except BlkError (List UInt8)} {records : List BlkRecord}
  {chain : List RawBlock} {headers : Headers W}

theorem BlkRecord.hash_eq {rec : BlkRecord} {raw : RawBlock} (h : rec.headerRaw = headerOf raw) :
    rec.hash D = blockHash D raw := by
  rw [BlkRecord.hash, h, blockHash]

theorem HoldBlocks.indexes (hhold : HoldBlocks blockBytes records chain)
    (hshared : SharedHashes D chain chain)
    (hlookup : ∀ h, headers.lookup h = (firstSeen D records h).map (BlkRecord.entry work)) :
    Indexes D blockBytes chain headers where
  known := by
    intro h hne
    rw [hlookup, ne_eq, Option.map_eq_none_iff] at hne
    obtain ⟨rec, hrec⟩ := Option.ne_none_iff_exists'.mp hne
    obtain ⟨hmem, rfl⟩ := firstSeen_eq_some hrec
    obtain ⟨raw, hraw, hheader, -⟩ := hhold.sound rec hmem
    exact ⟨raw, hraw, BlkRecord.hash_eq hheader⟩
  entry := by
    intro raw hraw
    obtain ⟨rec, hrec, hheader⟩ := hhold.complete raw hraw
    obtain ⟨first, hfirst⟩ : ∃ first, firstSeen D records (rec.hash D) = some first :=
      firstSeen_isSome hrec
    obtain ⟨hmem, hhash⟩ := firstSeen_eq_some hfirst
    -- The first record under this hash is one of the same block.
    obtain ⟨raw', hraw', hheader', hbytes⟩ := hhold.sound first hmem
    rw [BlkRecord.hash_eq hheader, BlkRecord.hash_eq hheader'] at hhash
    obtain rfl := hshared raw' hraw' raw hraw hhash
    rw [BlkRecord.hash_eq hheader] at hfirst
    refine ⟨first.entry work, by rw [hlookup, hfirst, Option.map_some], ?_, hbytes⟩
    rw [BlkRecord.entry, BlkRecord.header, hheader', prevHash]

/-- The walk back from a block of the chain passes the blocks below it. -/
theorem walkBack_eq_take (hvalid : LinkedChain D chain)
    (hindex : Indexes D blockBytes chain headers)
    {fuel k : Nat} {raw : RawBlock} {acc result : List Hash32} (hraw : chain[k]? = some raw)
    (h : walkBack headers fuel (blockHash D raw) acc = .ok result) :
    result = (chain.take (k + 1)).map (blockHash D) ++ acc := by
  -- On the fuel; every step goes one block down and puts its hash in front.
  induction fuel generalizing k raw acc with
  | zero => contradiction
  | succ fuel ih =>
      obtain ⟨e, he, hprev, -⟩ := hindex.entry raw (List.mem_of_getElem? hraw)
      simp only [walkBack, he] at h
      cases k with
      | zero =>
          rw [if_pos (hprev.trans (hvalid.root raw hraw))] at h
          obtain rfl := Except.ok.inj h
          rw [List.take_add_one, hraw, List.take_zero]
          rfl
      | succ k =>
          have hlt : k + 1 < chain.length := (List.getElem?_eq_some_iff.mp hraw).1
          have hraw' : chain[k]? = some _ := List.getElem?_eq_getElem (by omega)
          have hmem := List.mem_of_getElem? hraw'
          have hlink := hprev.trans (hvalid.linked k _ raw hraw' hraw)
          obtain ⟨e', he', -⟩ := hindex.entry _ hmem
          rw [← hlink] at he'
          rw [if_neg (hlink ▸ hvalid.hash_ne_zero _ hmem), he'] at h
          dsimp only at h
          rw [hlink] at h
          rw [ih hraw' h, List.take_add_one (i := k + 1), hraw, List.map_append,
            List.append_assoc]
          rfl

theorem locations_forall₂ {hashes : List Hash32} {ls : List BlockLocation}
    (h : locations headers hashes = .ok ls) :
    List.Forall₂ (fun a l => ∃ e, headers.lookup a = some e ∧ l = e.location) hashes ls := by
  induction hashes generalizing ls with
  | nil =>
      obtain rfl := Except.ok.inj h
      exact .nil
  | cons a hashes ih =>
      rw [locations] at h
      cases he : headers.lookup a with
      | none =>
          rw [he] at h
          contradiction
      | some e =>
          rw [he] at h
          obtain ⟨rest, hrest, hls⟩ := except_bind_eq_ok h
          obtain rfl := Except.ok.inj hls
          exact .cons ⟨e, he, rfl⟩ (ih hrest)

/-- What the header pass went through when it returns. -/
theorem buildChainIndex_inv [AddMonoid W] [LinearOrder W] {orders : ChainOrders W} {fuel : Nat}
    {files : List BlkFile} {index : ChainIndex} {stats : ChainBuildStats}
    (h : buildChainIndex D work orders fuel files = .ok (index, stats)) :
    ∃ scan tipHash hashes, scanFiles D work files ⟨∅, 0, 0⟩ = .ok scan ∧
      walkBack scan.headers fuel tipHash [] = .ok hashes ∧
      locations scan.headers hashes = .ok index.byHeight := by
  cases files with
  | nil => contradiction
  | cons file files =>
      obtain ⟨scan, hscan, h⟩ := except_bind_eq_ok h
      obtain ⟨cum, -, h⟩ := except_bind_eq_ok h
      split at h
      · contradiction
      · rename_i tipHash w htip
        obtain ⟨hashes, hhashes, h⟩ := except_bind_eq_ok h
        obtain ⟨byHeight, hbyHeight, h⟩ := except_bind_eq_ok h
        obtain ⟨rfl, -⟩ := Prod.mk.inj (Except.ok.inj h)
        exact ⟨scan, tipHash, hashes, hscan, hhashes, hbyHeight⟩

/-- Every height of the index leads to the chain's block of that height. -/
theorem HoldBlocks.byHeight [AddMonoid W] [LinearOrder W] {orders : ChainOrders W} {fuel : Nat}
    {files : List (List BlkRecord)} {index : ChainIndex} {stats : ChainBuildStats}
    (hhold : HoldBlocks blockBytes files.flatten chain) (hvalid : LinkedChain D chain)
    (hshared : SharedHashes D chain chain)
    (h : buildChainIndex D work orders fuel (files.map BlkFile.ofRecords) = .ok (index, stats))
    {k : Nat} {l : BlockLocation} (hl : index.byHeight[k]? = some l) :
    ∃ raw, chain[k]? = some raw ∧ blockBytes l = .ok raw := by
  obtain ⟨scan, tipHash, hashes, hscan, hwalk, hlocs⟩ := buildChainIndex_inv h
  obtain ⟨scan', hscan', hlookup⟩ := scanFiles_ok D work files ⟨∅, 0, 0⟩
  obtain rfl := Except.ok.inj (hscan'.symm.trans hscan)
  simp only [AList.lookup_empty, Option.none_or] at hlookup
  have hindex := hhold.indexes hshared hlookup
  -- The walk starts at a known block, or it would have panicked.
  obtain ⟨raw, hraw, rfl⟩ := hindex.known tipHash (by
    intro hnone
    cases fuel <;> simp [walkBack, hnone] at hwalk)
  obtain ⟨t, ht⟩ := List.mem_iff_getElem?.mp hraw
  rw [walkBack_eq_take hvalid hindex ht hwalk, List.append_nil] at hlocs
  obtain ⟨hlen, hall⟩ := List.forall₂_iff_get.mp (locations_forall₂ hlocs)
  obtain ⟨hk, rfl⟩ := List.getElem?_eq_some_iff.mp hl
  -- The `k`-th hash of the walk is that of the chain's `k`-th block.
  obtain ⟨e, he, hloc⟩ := hall k (by omega) hk
  have hmapped : ((chain.take (t + 1)).map (blockHash D))[k]? = some _ :=
    List.getElem?_eq_getElem (by omega)
  rw [List.getElem?_map] at hmapped
  obtain ⟨rawₖ, hrawₖ, hhash⟩ := Option.map_eq_some_iff.mp hmapped
  obtain ⟨-, hrawₖ⟩ := getElem?_of_take hrawₖ
  obtain ⟨e', he', -, hbytes⟩ := hindex.entry rawₖ (List.mem_of_getElem? hrawₖ)
  refine ⟨rawₖ, hrawₖ, ?_⟩
  rw [List.get_eq_getElem, ← hhash, he'] at he
  obtain rfl := Option.some.inj he
  rw [List.get_eq_getElem] at hloc
  rw [hloc]
  exact hbytes

end Index

/-! ## A whole run -/

section Run

variable {W : Type} {env : ParseEnv W} {cfg : ParseConfig} {files : List (List BlkRecord)}
  {chain : List RawBlock} {index : ChainIndex} {start endHeight : Nat} {store : UtxoStore}

/-- The orphan filter names no block of the chain. -/
def KeepsAll (D : Digests) (chain : List RawBlock) (cfg : ParseConfig) : Prop :=
  ∀ raw ∈ chain, blockHash D raw ∉ cfg.orphanBlocks.getD []

theorem keepsAll_of_none (D : Digests) (chain : List RawBlock) (h : cfg.orphanBlocks = none) :
    KeepsAll D chain cfg := by
  intro raw _
  rw [h]
  exact List.not_mem_nil

/-- What a worker sends for a height whose bytes are the chain's block. -/
theorem parseHeight_eq_ok (horphans : KeepsAll env.digests chain cfg) {height : Nat}
    {item : WorkItem} (hindex : ∀ l, index.byHeight[height]? = some l →
      ∃ raw, chain[height]? = some raw ∧ env.blockBytes l = .ok raw)
    (h : parseHeight env cfg index height = .ok item) :
    ∃ block, item = .block height block ∧ chainBlock env.digests chain height = some block := by
  unfold parseHeight at h
  split at h
  · contradiction
  · rename_i l hl
    obtain ⟨raw, hraw, hbytes⟩ := hindex l hl
    rw [hbytes] at h
    have hkept := horphans raw (List.mem_of_getElem? hraw)
    rw [blockHash, headerOf] at hkept
    simp only [parsePayload, if_neg hkept] at h
    split at h
    · contradiction
    · split at h
      · rename_i block hparse
        obtain rfl := Except.ok.inj h
        exact ⟨block, rfl, chainBlock_eq_some.mpr ⟨raw, hraw, hparse⟩⟩
      · contradiction

/-- The messages of a stage without a failure: one block for every height. -/
theorem parseStage_eq_ok (horphans : KeepsAll env.digests chain cfg)
    (hindex : ∀ (height : Nat) l, index.byHeight[height]? = some l →
      ∃ raw, chain[height]? = some raw ∧ env.blockBytes l = .ok raw)
    {heights : List Nat} (h : (parseStage env cfg index heights).2 = .ok ()) :
    (parseStage env cfg index heights).1.map WorkItem.height = heights ∧
      ∀ item ∈ (parseStage env cfg index heights).1, ∃ height block,
        item = .block height block ∧ chainBlock env.digests chain height = some block := by
  induction heights with
  | nil => exact ⟨rfl, fun _ hmem => absurd hmem List.not_mem_nil⟩
  | cons height heights ih =>
      cases hitem : parseHeight env cfg index height with
      | error stop => simp [parseStage, hitem] at h
      | ok item =>
          simp only [parseStage, hitem] at h ⊢
          obtain ⟨block, rfl, hblock⟩ := parseHeight_eq_ok horphans (hindex height) hitem
          obtain ⟨hheights, hblocks⟩ := ih h
          refine ⟨?_, ?_⟩
          · rw [List.map_cons, hheights]
            rfl
          · intro item hmem
            rcases List.mem_cons.mp hmem with rfl | hmem
            · exact ⟨height, block, rfl, hblock⟩
            · exact hblocks item hmem

/-- The run is over the heights from `start` up to `endHeight`. -/
def ParsesRange [AddMonoid W] [LinearOrder W] (env : ParseEnv W) (cfg : ParseConfig)
    (files : List (List BlkRecord)) (start endHeight : Nat) : Prop :=
  ∃ index stats, buildChainIndex env.digests env.work env.chainOrders env.fuel
      (files.map BlkFile.ofRecords) = .ok (index, stats) ∧
    parseRange cfg index = .ok (start, endHeight)

instance [AddMonoid W] [LinearOrder W] (env : ParseEnv W) (cfg : ParseConfig)
    (files : List (List BlkRecord)) (start endHeight : Nat) :
    Decidable (ParsesRange env cfg files start endHeight) :=
  decidable_of_iff ((match buildChainIndex env.digests env.work env.chainOrders env.fuel
      (files.map BlkFile.ofRecords) with
    | .error stop => Except.error (ParseStop.chain stop)
    | .ok (index, _) => parseRange cfg index) = .ok (start, endHeight)) <| by
    unfold ParsesRange
    split
    · rename_i stop hstop
      simp [hstop]
    · rename_i index stats hindex
      simp [hindex]

theorem parseRange_lt (h : parseRange cfg index = .ok (start, endHeight)) : start < endHeight := by
  unfold parseRange at h
  split at h
  · contradiction
  · dsimp only at h
    split at h
    · contradiction
    · rename_i hlt
      obtain ⟨rfl, rfl⟩ := Prod.mk.inj (Except.ok.inj h)
      exact Nat.lt_of_not_le hlt

/-- What a run over a range of a chain leaves. -/
structure ParsedRange (D : Digests) (chain : List RawBlock) (blocksPerPart start endHeight : Nat)
    (store : UtxoStore) (run : ParseRun) : Prop where
  start_lt : start < endHeight
  blocks : ∀ height, start ≤ height → height < endHeight →
    ∃ block, chainBlock D chain height = some block
  store_eq : run.store = store.withUtxo
    (replayRange D chain start store.db.utxo (endHeight - start))
  sink : ∃ o : Output, run.sink = o.sink ++ [.finish o.part] ∧
    o = (Output.initial blocksPerPart start store).upTo blocksPerPart (chainBlock D chain) start
      (endHeight - start)

theorem ParsedRange.end_le {D : Digests} {blocksPerPart : Nat} {run : ParseRun}
    (h : ParsedRange D chain blocksPerPart start endHeight store run) :
    endHeight ≤ chain.length := by
  have hlt := h.start_lt
  obtain ⟨block, hblock⟩ := h.blocks (endHeight - 1) (by omega) (by omega)
  have := chainBlock_lt hblock
  omega

/-- From the table of the blocks below its range, a run leaves the table of the blocks
below its end, and nothing else in the store changes. -/
theorem ParsedRange.db_eq {D : Digests} {blocksPerPart : Nat} {run : ParseRun}
    (h : ParsedRange D chain blocksPerPart start endHeight store run)
    (hstore : store.db.utxo = replay D (chain.take start)) :
    run.store.db = store.db.withUtxo (replay D (chain.take endHeight)) := by
  have hlt := h.start_lt
  have hle := h.end_le
  have hend : start + (endHeight - start) = endHeight := by omega
  have hreplay := @replayRange_replay chain start (endHeight - start) D (by omega)
  rw [h.store_eq, hstore, hreplay, hend]
  rfl

/-- The rows of a run, in height order. -/
theorem ParsedRange.pushes_eq {D : Digests} {blocksPerPart : Nat} {run : ParseRun}
    (h : ParsedRange D chain blocksPerPart start endHeight store run) :
    pushes run.sink = (filledRange enrich D chain start store.db.utxo (endHeight - start)).map
      fun e => (e.1 / blocksPerPart, e.2) := by
  obtain ⟨o, hsink, rfl⟩ := h.sink
  rw [hsink, pushes_append, Output.pushes_upTo]
  simp [pushes, Output.initial]

/-- Both stages over a range whose locations hold the chain's blocks: once they return, the
blocks of the range are applied in height order, whatever the order of the workers. -/
theorem parseOver_parsedRange
    (hbyHeight : ∀ (height : Nat) l, index.byHeight[height]? = some l →
      ∃ raw, chain[height]? = some raw ∧ env.blockBytes l = .ok raw)
    (horphans : KeepsAll env.digests chain cfg) (hlt : start < endHeight) (hbulk : store.Bulk)
    (hok : (parseOver env cfg index start endHeight store).result = .ok ()) :
    ParsedRange env.digests chain cfg.blocksPerPart start endHeight store
      (parseOver env cfg index start endHeight store) := by
  unfold parseOver at hok ⊢
  dsimp only at hok ⊢
  split at hok
  · contradiction
  · contradiction
  · rename_i hstage hconsumed
    obtain ⟨hheights, hitems⟩ := parseStage_eq_ok horphans hbyHeight hstage
    have hfinished := (consumeOrdered_inOrder hbulk (fun _ _ => chainBlock_shape) hlt
      hitems).finished hconsumed
    refine ⟨hlt, ?_, ?_, ?_⟩
    · intro height hle hheight
      -- Every height of the range was sent, and what was sent is the chain's block.
      have hmem : height ∈ env.workerOrder (List.range' start (endHeight - start)) := by
        rw [(env.workerOrder_perm _).mem_iff, List.mem_range'_1]
        omega
      rw [← hheights] at hmem
      obtain ⟨item, hitem, rfl⟩ := List.mem_map.mp hmem
      obtain ⟨height, block, rfl, hblock⟩ := hitems item hitem
      exact ⟨block, hblock⟩
    · rw [hfinished.store, Output.store_upTo]
      rfl
    · exact ⟨_, hfinished.sink, rfl⟩

variable [AddMonoid W] [LinearOrder W]

/-- A bulk parse that returns has applied the chain's blocks of its range, in height
order, whatever the order of the workers. -/
theorem runParse_parsedRange (hchain : LinkedChain env.digests chain)
    (hshared : SharedHashes env.digests chain chain)
    (hhold : HoldBlocks env.blockBytes files.flatten chain)
    (horphans : KeepsAll env.digests chain cfg)
    (hrange : ParsesRange env cfg files start endHeight) (hbulk : store.Bulk)
    (hok : (runParse env cfg (files.map BlkFile.ofRecords) store).result = .ok ()) :
    ParsedRange env.digests chain cfg.blocksPerPart start endHeight store
      (runParse env cfg (files.map BlkFile.ofRecords) store) := by
  obtain ⟨index, stats, hindex, hrange⟩ := hrange
  have hbyHeight : ∀ (height : Nat) l, index.byHeight[height]? = some l →
      ∃ raw, chain[height]? = some raw ∧ env.blockBytes l = .ok raw :=
    fun _ _ hl => hhold.byHeight hchain hshared hindex hl
  have hrun : runParse env cfg (files.map BlkFile.ofRecords) store =
      parseOver env cfg index start endHeight store := by
    rw [runParse, hindex]
    simp only [hrange]
  rw [hrun] at hok ⊢
  exact parseOver_parsedRange hbyHeight horphans (parseRange_lt hrange) hbulk hok

end Run

/-! ## A file of blocks -/

/-- The records of a file that holds blocks one after the other, with their bytes. -/
def fileRecords : Nat → List RawBlock → List (BlkRecord × RawBlock)
  | _, [] => []
  | offset, raw :: chain =>
      (⟨⟨0, UInt64.ofNat offset, UInt32.ofNat (raw.length + 8)⟩, headerOf raw⟩, raw) ::
        fileRecords (offset + (raw.length + 8)) chain

/-- A bulk parse of one file, by workers that take the last height first. -/
def fileEnv (D : Digests) (chain : List RawBlock) : ParseEnv Nat where
  digests := D
  work _ := 2
  chainOrders := ⟨.stored _ _, .stored _ _, .stored _ _⟩
  fuel := chain.length + 1
  blockBytes l :=
    match (fileRecords 0 chain).find? fun e => e.1.location = l with
    | some e => .ok e.2
    | none => .error .io
  workerOrder heights := heights.reverse
  workerOrder_perm heights := heights.reverse_perm
  faults := .none
  orders _ := .stored _ _

/-- The records of that file. -/
def fileOf (chain : List RawBlock) : List (List BlkRecord) := [(fileRecords 0 chain).map Prod.fst]

theorem holdBlocks_oldChain :
    HoldBlocks (fileEnv treeDigests oldChain).blockBytes (fileOf oldChain).flatten oldChain :=
  ⟨by decide +kernel, by decide +kernel⟩

/-- A parse with two blocks a part. -/
def sampleParse (start endHeight : Nat) : ParseConfig := ⟨start, some endHeight, 2, none⟩

/-- The directories after a parse of the sample file. -/
def sampleParsed (start endHeight : Nat) (dirs : ParseDirs) : ParseDirs :=
  (runParseIn (fileEnv treeDigests oldChain) (sampleParse start endHeight)
    ((fileOf oldChain).map BlkFile.ofRecords) dirs).2

end Bidx
