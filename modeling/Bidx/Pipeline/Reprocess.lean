import Bidx.Pipeline.Resume
import Bidx.Pipeline.SpendGraph

/-!
# Parsing a range again

A bulk parse over heights that were parsed before meets the table of all blocks parsed so
far.  What its blocks spent is gone from there, and some of what they created may have
been spent by later blocks.  The second run leaves the table and repeats the rows exactly
when the range is closed in both directions: its blocks take only what its earlier blocks
left, and what they leave unspent is not taken above the range.
-/

namespace Bidx

open KeyValue

/-! ## The condition -/

/-- The outputs of the heights from `a` up to `b` are spent among themselves, on a chain
of which the heights below `n` are parsed. -/
structure SelfContained (D : Digests) (chain : List RawBlock) (a b n : Nat) : Prop where
  /-- Nothing from below the range is taken in it. -/
  takes_own : ∀ height k, a ≤ height → height < b → Takes D chain height k →
    ∃ below, a ≤ below ∧ below < height ∧ Leaves D chain below k
  /-- What is unspent at the end of the range is not taken above it. -/
  stays_unspent : ∀ height k, a ≤ height → UnspentAt D chain b height k →
    UnspentAt D chain n height k
  /-- No outpoint of the range gets another output above it. -/
  not_again : ∀ height later k, a ≤ height → height < b → Leaves D chain height k → b ≤ later →
    ¬UnspentAt D chain n later k

section Again

variable {D : Digests} {chain : List RawBlock} {a b n height : Nat} {k : Key}

/-! ## The table -/

/-- What a block takes from below the range is gone from the last table, or another output
has come in its place. -/
theorem ValidChain.last_entry_of_takes (hchain : ValidChain D chain) (hlt : height < n)
    (hn : n ≤ chain.length) (htakes : Takes D chain height k) :
    replay D (chain.take n) k = none ∨
      ∃ v, replay D (chain.take n) k = some (UtxoValue.encode v) ∧ height < v.height.toNat := by
  rcases hchain.entry_cases (show height + 1 ≤ n from hlt) hn k with heq | hnone | ⟨v, hv, hlo, -⟩
  · exact .inl (heq.trans (htakes.replay_succ hchain))
  · exact .inl hnone
  · exact .inr ⟨v, hv, by omega⟩

/-- An outpoint that a block takes, and none of the blocks of the range before it left, was
not touched by them at all. -/
theorem ValidChain.untouched_of_takes (hchain : ValidChain D chain)
    (htakes : Takes D chain height k)
    (hnone : ∀ below, a ≤ below → below < height → ¬Leaves D chain below k) {below : Nat}
    (hle : a ≤ below) (hlt : below < height) :
    ¬Leaves D chain below k ∧ ¬Takes D chain below k := by
  refine ⟨hnone below hle hlt, fun hbelow => ?_⟩
  have hheight : height ≤ chain.length := htakes.height_lt.le
  have hne := htakes.replay_ne_none hchain
  rcases hchain.last_entry_of_takes hlt hheight hbelow with hgone | ⟨v, hv, hgt⟩
  · exact hne hgone
  · -- The output in its place was left between the two blocks.
    have hunspent := (hchain.unspentAt_iff hheight).mpr ⟨v, hv, rfl⟩
    exact hnone _ (by omega) hunspent.height_lt hunspent.leaves

/-- An outpoint of the range stands on the last table as at the end of the range. -/
theorem SelfContained.replay_eq (h : SelfContained D chain a b n) (hchain : ValidChain D chain)
    (hbn : b ≤ n) (hn : n ≤ chain.length) (hle : a ≤ height) (hlt : height < b)
    (hleaves : Leaves D chain height k) :
    replay D (chain.take b) k = replay D (chain.take n) k := by
  rcases hchain.entry_cases hbn hn k with heq | hnone | ⟨v, hv, hlo, -⟩
  · exact heq.symm
  · rw [hnone]
    by_contra hne
    obtain ⟨v, hv, hunspent⟩ := hchain.exists_unspentAt (by omega) hne
    -- The output there was left no earlier than at `height`.
    have hfrom : a ≤ v.height.toNat := by
      rcases hchain.entry_cases hlt.le (by omega) k with heq | hempty | ⟨w, hw, hlo, -⟩
      · rw [heq, hleaves.replay_eq_none hchain] at hv
        contradiction
      · rw [hempty] at hv
        contradiction
      · rw [hv, Option.some.injEq] at hw
        rw [UtxoValue.encode_inj hw]
        omega
    obtain ⟨w, hw, -⟩ := (hchain.unspentAt_iff hn).mp (h.stays_unspent _ k hfrom hunspent)
    rw [hnone] at hw
    contradiction
  · have hunspent := (hchain.unspentAt_iff hn).mpr ⟨v, hv, rfl⟩
    exact absurd hunspent (h.not_again height _ k hle hlt hleaves hlo)

theorem SelfContained.replayRange_eq (h : SelfContained D chain a b n)
    (hchain : ValidChain D chain) (hab : a ≤ b) (hbn : b ≤ n) (hn : n ≤ chain.length) :
    replayRange D chain a (replay D (chain.take n)) (b - a) = replay D (chain.take n) := by
  have hend : a + (b - a) = b := by omega
  funext k
  -- What the range touches ends as at its end, what it does not is passed through.
  by_cases htouched : ∃ height, a ≤ height ∧ height < b ∧
      (Leaves D chain height k ∨ Takes D chain height k)
  · obtain ⟨height, hle, hlt, htouch⟩ := htouched
    rw [hchain.replayRange_of_touched (hchain.decodes n) (by omega) hle (by omega) htouch, hend]
    rcases htouch with hleaves | htakes
    · exact h.replay_eq hchain hbn hn hle hlt hleaves
    · obtain ⟨below, hbelow, hlt', hleaves⟩ := h.takes_own height k hle hlt htakes
      exact h.replay_eq hchain hbn hn hbelow (by omega) hleaves
  · refine hchain.replayRange_of_untouched (hchain.decodes n) (by omega) fun height hle hlt => ?_
    rw [hend] at hlt
    exact not_or.mp fun htouch => htouched ⟨height, hle, hlt, htouch⟩

/-- The outpoints the range leaves, when the second run changes nothing. -/
theorem replay_eq_of_replayRange_eq (hchain : ValidChain D chain) (hbn : b ≤ n)
    (hn : n ≤ chain.length)
    (hsame : replayRange D chain a (replay D (chain.take n)) (b - a) = replay D (chain.take n))
    (hle : a ≤ height) (hlt : height < b) (hleaves : Leaves D chain height k) :
    replay D (chain.take b) k = replay D (chain.take n) k := by
  have hagain : replayRange D chain a (replay D (chain.take n)) (b - a) k =
      replay D (chain.take (a + (b - a))) k :=
    hchain.replayRange_of_touched (hchain.decodes n) (by omega) hle (by omega) (.inl hleaves)
  rw [hsame, show a + (b - a) = b by omega] at hagain
  exact hagain.symm

/-! ## The rows -/

/-- A block that takes only what the range left finds the same outputs again. -/
theorem filled_again_of_takes_own (hchain : ValidChain D chain) (hle : a ≤ height)
    {block : FullBlock} (hblock : chainBlock D chain height = some block)
    (hown : ∀ k, Takes D chain height k →
      ∃ below, a ≤ below ∧ below < height ∧ Leaves D chain below k) :
    filled enrich height (replayRange D chain a (replay D (chain.take n)) (height - a)) block =
      filled enrich height (replay D (chain.take height)) block := by
  have hend : a + (height - a) = height := by omega
  have hlen := chainBlock_lt hblock
  obtain ⟨hspends, hfees⟩ := spendResult_congr (UInt32.ofNat height)
    (S := replayRange D chain a (replay D (chain.take n)) (height - a))
    (T := replay D (chain.take height)) (chainBlock_shape hblock)
    (hchain.at_block hblock).1.spent_nodup (by
      intro k hspent hnot
      obtain ⟨below, hbelow, hlt, hleaves⟩ := hown k ⟨block, hblock, hspent, hnot⟩
      rw [hchain.replayRange_of_touched (hchain.decodes n) (by omega) hbelow (by omega)
        (.inl hleaves), hend])
  rw [filled, filled, hspends, hfees]

/-- A block that repeats its rows found the outputs it takes, so blocks of the range left
them: the last table has no output that old. -/
theorem takes_own_of_filled_again (hchain : ValidChain D chain) (hle : a ≤ height)
    (hlt : height < n) (hn : n ≤ chain.length) {block : FullBlock}
    (hblock : chainBlock D chain height = some block)
    (hsame : filled enrich height (replayRange D chain a (replay D (chain.take n)) (height - a))
        block = filled enrich height (replay D (chain.take height)) block)
    (htakes : Takes D chain height k) :
    ∃ below, a ≤ below ∧ below < height ∧ Leaves D chain below k := by
  by_contra hnone
  push Not at hnone
  -- The outpoint comes through the range as the last table has it.
  have hthrough : replayRange D chain a (replay D (chain.take n)) (height - a) k =
      replay D (chain.take n) k :=
    hchain.replayRange_of_untouched (hchain.decodes n) (by omega) fun below hbelow hlt' =>
      hchain.untouched_of_takes htakes hnone hbelow (by omega)
  obtain ⟨v, hv, hunspent⟩ := hchain.exists_unspentAt (by omega) (htakes.replay_ne_none hchain)
  obtain ⟨block', hblock', hspent, hnot⟩ := id htakes
  obtain rfl := Option.some.inj (hblock.symm.trans hblock')
  -- Equal spend rows have equal spent values, the height among them.
  have hvalue := (hchain.at_block hblock).1.value_eq_of_spends (chainBlock_shape hblock)
    (hchain.decodes height) (congrArg Prod.snd hsame) hspent hnot
  rw [hthrough, hv, Option.bind_some, UtxoValue.decode_encode] at hvalue
  rcases hchain.last_entry_of_takes hlt hn htakes with hgone | ⟨w, hw, hgt⟩
  · rw [hgone] at hvalue
    contradiction
  · rw [hw, Option.bind_some, UtxoValue.decode_encode] at hvalue
    -- One output cannot be from below and from above the block.
    obtain rfl := Option.some.inj hvalue
    have := hunspent.height_lt
    omega

/-- The rows of a range that is parsed again. -/
theorem filledRange_again_iff (hchain : ValidChain D chain) (hbn : b ≤ n) (hn : n ≤ chain.length) :
    filledRange enrich D chain a (replay D (chain.take n)) (b - a) = laterRows D chain a b ↔
      ∀ height k, a ≤ height → height < b → Takes D chain height k →
        ∃ below, a ≤ below ∧ below < height ∧ Leaves D chain below k := by
  rw [laterRows, filledRange_eq_iff]
  constructor
  · intro hsame height k hle hlt htakes
    obtain ⟨block, hblock, -⟩ := id htakes
    have hrow := hsame height block hle (by omega) hblock
    rw [replayRange_replay D (by omega), show a + (height - a) = height by omega] at hrow
    exact takes_own_of_filled_again hchain hle (by omega) hn hblock hrow htakes
  · intro hown height block hle hlt hblock
    rw [replayRange_replay D (by omega), show a + (height - a) = height by omega]
    exact filled_again_of_takes_own hchain hle hblock fun k => hown height k hle (by omega)

/-- Table and rows together. -/
theorem selfContained_iff (hchain : ValidChain D chain) (hab : a ≤ b) (hbn : b ≤ n)
    (hn : n ≤ chain.length) :
    (replayRange D chain a (replay D (chain.take n)) (b - a) = replay D (chain.take n) ∧
      filledRange enrich D chain a (replay D (chain.take n)) (b - a) = laterRows D chain a b) ↔
      SelfContained D chain a b n := by
  rw [filledRange_again_iff hchain hbn hn]
  constructor
  · rintro ⟨hsame, hown⟩
    refine ⟨hown, ?_, ?_⟩
    · intro height k hle hunspent
      have heq := replay_eq_of_replayRange_eq hchain hbn hn hsame hle hunspent.height_lt
        hunspent.leaves
      rwa [hchain.unspentAt_iff (by omega), heq, ← hchain.unspentAt_iff hn] at hunspent
    · intro height later k hle hlt hleaves hlater hunspent
      have heq := replay_eq_of_replayRange_eq hchain hbn hn hsame hle hlt hleaves
      rw [hchain.unspentAt_iff hn, ← heq, ← hchain.unspentAt_iff (by omega)] at hunspent
      have := hunspent.height_lt
      omega
  · intro h
    exact ⟨h.replayRange_eq hchain hab hbn hn, h.takes_own⟩

end Again

/-! ## Two runs -/

/-- The rows pushed for the heights from `a` up to `b`. -/
def rowsBetween (a b : Nat) (calls : List SinkEvent) : List (FullBlock × List SpendRow) :=
  ((pushes calls).map Prod.snd).filter fun e =>
    a ≤ e.1.blockRow.height.toNat ∧ e.1.blockRow.height.toNat < b

/-- The second run leaves the UTXO set as it found it, and pushes for the heights from `a`
up to `b` what the first run pushed for them. -/
structure Repeats (a b : Nat) (first second : ParseRun) : Prop where
  utxo : second.store.db.utxo = first.store.db.utxo
  rows : rowsBetween a b second.sink = rowsBetween a b first.sink

/-- `run` is a `run_parse` over the heights from `start` up to `endHeight` that returns,
with any workers and any surroundings. -/
def ParsesAs (W : Type) [AddMonoid W] [LinearOrder W] (D : Digests)
    (blockBytes : BlockLocation → Except BlkError (List UInt8)) (files : List (List BlkRecord))
    (chain : List RawBlock) (start endHeight : Nat) (utxo : Db) (run : ParseRun) : Prop :=
  ∃ (env : ParseEnv W) (cfg : ParseConfig), env.digests = D ∧ env.blockBytes = blockBytes ∧
    1 ≤ cfg.blocksPerPart ∧ KeepsAll D chain cfg ∧ ParsesRange env cfg files start endHeight ∧
    runParse env cfg (files.map BlkFile.ofRecords) (.openBulk utxo) = run ∧ run.result = .ok ()

section TwoRuns

variable {W : Type} [AddMonoid W] [LinearOrder W] {D : Digests}
  {blockBytes : BlockLocation → Except BlkError (List UInt8)} {files : List (List BlkRecord)}
  {chain : List RawBlock} {start endHeight a b n : Nat} {utxo : Db} {run first second : ParseRun}

theorem ParsesAs.parsedRange
    (h : ParsesAs W D blockBytes files chain start endHeight utxo run)
    (hchain : LinkedChain D chain) (hshared : SharedHashes D chain chain)
    (hfiles : HoldBlocks blockBytes files.flatten chain) :
    ∃ blocksPerPart,
      ParsedRange D chain blocksPerPart start endHeight (.openBulk utxo) run := by
  obtain ⟨env, cfg, rfl, rfl, -, horphans, hrange, rfl, hok⟩ := h
  exact ⟨_, runParse_parsedRange hchain hshared hfiles horphans hrange
    (UtxoStore.bulk_openBulk _) hok⟩

/-- The rows of a run between two heights, by their heights in the range. -/
theorem ParsedRange.rowsBetween_eq {blocksPerPart : Nat} {store : UtxoStore}
    (h : ParsedRange D chain blocksPerPart start endHeight store run) (hlen : chain.length < 2 ^ 32)
    (a b : Nat) :
    rowsBetween a b run.sink =
      ((filledRange enrich D chain start store.db.utxo (endHeight - start)).filter
        fun e => a ≤ e.1 ∧ e.1 < b).map Prod.snd := by
  rw [rowsBetween, h.pushes_eq, List.map_map, List.filter_map]
  congr 1
  refine List.filter_congr fun e he => ?_
  have hend := h.end_le
  have hlt := (filledRange_heights he).2.1
  have hstart := h.start_lt
  have hheight : e.2.1.blockRow.height.toNat = e.1 := by
    rw [filledRange_blockRow he, toNat_ofNat_height (by omega)]
  show decide (a ≤ e.2.1.blockRow.height.toNat ∧ e.2.1.blockRow.height.toNat < b) = _
  rw [hheight]

/-- The first run's rows of the range. -/
theorem chainRows_filter (hab : a ≤ b) (hbn : b ≤ n) (hn : n ≤ chain.length) :
    (chainRows D chain n).filter (fun e => a ≤ e.1 ∧ e.1 < b) = laterRows D chain a b := by
  rw [chainRows_append hbn hn, chainRows_append hab (by omega), List.filter_append,
    List.filter_append]
  have hbelow : (chainRows D chain a).filter (fun e => a ≤ e.1 ∧ e.1 < b) = [] := by
    refine List.filter_eq_nil_iff.mpr fun e he => ?_
    have := chainRows_height he
    simp only [decide_eq_true_eq]
    omega
  have habove : (laterRows D chain b n).filter (fun e => a ≤ e.1 ∧ e.1 < b) = [] := by
    refine List.filter_eq_nil_iff.mpr fun e he => ?_
    have := laterRows_height hbn he
    simp only [decide_eq_true_eq]
    omega
  have hinside : (laterRows D chain a b).filter (fun e => a ≤ e.1 ∧ e.1 < b) =
      laterRows D chain a b := by
    refine List.filter_eq_self.mpr fun e he => ?_
    simpa using laterRows_height hab he
  rw [hbelow, habove, hinside, List.nil_append, List.append_nil]

/-- A second run over a range repeats the first exactly when the range is self-contained. -/
theorem reparse_repeats_iff (hchain : ValidChain D chain) (hshared : SharedHashes D chain chain)
    (hfiles : HoldBlocks blockBytes files.flatten chain) (hbn : b ≤ n)
    (hfirst : ParsesAs W D blockBytes files chain 0 n .fresh first)
    (hsecond : ParsesAs W D blockBytes files chain a b first.store.db second) :
    Repeats a b first second ↔ SelfContained D chain a b n := by
  obtain ⟨_, hrun⟩ := hfirst.parsedRange hchain.linkedChain hshared hfiles
  obtain ⟨_, hrun'⟩ := hsecond.parsedRange hchain.linkedChain hshared hfiles
  have hab := hrun'.start_lt
  have hn := hrun.end_le
  have hutxo : first.store.db.utxo = replay D (chain.take n) := by
    rw [hrun.db_eq rfl]
    rfl
  have hutxo' : second.store.db.utxo =
      replayRange D chain a (replay D (chain.take n)) (b - a) := by
    rw [hrun'.store_eq, ← hutxo]
    rfl
  have hrows : rowsBetween a b first.sink = (laterRows D chain a b).map Prod.snd := by
    rw [hrun.rowsBetween_eq hchain.length_lt, ← chainRows_filter hab.le hbn hn]
    rfl
  have hrows' : rowsBetween a b second.sink =
      (filledRange enrich D chain a (replay D (chain.take n)) (b - a)).map Prod.snd := by
    rw [hrun'.rowsBetween_eq hchain.length_lt, ← hutxo]
    show ((filledRange enrich D chain a first.store.db.utxo (b - a)).filter _).map _ = _
    rw [List.filter_eq_self.mpr]
    intro e he
    have := filledRange_heights he
    simp only [decide_eq_true_eq]
    omega
  have hheights : (filledRange enrich D chain a (replay D (chain.take n)) (b - a)).map Prod.fst =
      (laterRows D chain a b).map Prod.fst := by
    rw [laterRows, filledRange_fst hchain enrich _ (by omega),
      filledRange_fst hchain enrich _ (by omega)]
  rw [← selfContained_iff hchain hab.le hbn hn]
  constructor
  · rintro ⟨hsame, hpushed⟩
    rw [hutxo, hutxo'] at hsame
    rw [hrows, hrows'] at hpushed
    exact ⟨hsame, (List.zip_of_prod hheights hpushed).trans (List.zip_of_prod rfl rfl).symm⟩
  · rintro ⟨hsame, hpushed⟩
    exact ⟨by rw [hutxo, hutxo', hsame], by rw [hrows, hrows', hpushed]⟩

end TwoRuns

/-! ## Concrete runs

A chain of two blocks, of which the second spends the output of the first for a fee of
10000. -/

def spendingCoinbase : WireTx where
  version := 1
  inputs := [⟨zeroBytes 32, 0xFFFFFFFF, [0x56], 0xFFFFFFFF⟩]
  outputs := [⟨5000000000, [0x51]⟩]
  locktime := 0
  witness := none

def spendingTx : WireTx where
  version := 1
  inputs := [⟨wordBytes 32 sampleGenesis.txid, 0, [], 0xFFFFFFFF⟩]
  outputs := [⟨4999990000, [0x51]⟩]
  locktime := 0
  witness := none

def spendingHeader : Bytes 80 :=
  ⟨LittleEndian.toBytes 4 1 ++ (LittleEndian.toBytes 32 sampleGenesis.hash ++
      (LittleEndian.toBytes 32 0x5012aa2854a2c2366c144eefc2d18c818145e7c2173f07909160d96a18806f6e ++
        (LittleEndian.toBytes 4 1296688603 ++
          (LittleEndian.toBytes 4 0x207fffff ++ LittleEndian.toBytes 4 0)))), by simp⟩

/-- SHA-256 on the two blocks. -/
def spendDigests : Digests := Digests.ofTable (sampleGenesis.table ++
  [(spendingCoinbase.stripped,
      wordBytes 32 0x470c1e5f2e70b068c88f82365e3e5c0f6cf4fce75c5f126c73873349b47955e9),
    (LittleEndian.toBytes 32 0x470c1e5f2e70b068c88f82365e3e5c0f6cf4fce75c5f126c73873349b47955e9,
      wordBytes 32 0x1c897baec81ff5894194ba751a87b0d62d52443f8a90f1a87ae4e8ca396ea090),
    (spendingTx.stripped,
      wordBytes 32 0xa630cc9ea8ba09ed737ad46655429d8a9742029864dacf163d6822e209ad1f3d),
    (LittleEndian.toBytes 32 0xa630cc9ea8ba09ed737ad46655429d8a9742029864dacf163d6822e209ad1f3d,
      wordBytes 32 0x0d67dd9f5df9637f788b589d504d4a3c82dbd65ae3deda48504fbc03d54954b4),
    (spendingHeader.toList,
      wordBytes 32 0x8de248d95b03552ddca048e1d2fcb669333cfc9a7d1e319d5c82f8acd28da9f4),
    (LittleEndian.toBytes 32 0x8de248d95b03552ddca048e1d2fcb669333cfc9a7d1e319d5c82f8acd28da9f4,
      wordBytes 32 0x17414a66a7288a71a55a38a5d4eddf235ac4e4c45a9a7c77eb3410a8e6bb7a4c)])

def spendChain : List RawBlock :=
  [sampleGenesis.raw, blockBytes spendingHeader [spendingCoinbase, spendingTx]]

theorem spendChain_valid : ValidChain spendDigests spendChain := by decide +kernel

theorem holdBlocks_spendChain :
    HoldBlocks (fileEnv spendDigests spendChain).blockBytes (fileOf spendChain).flatten
      spendChain :=
  ⟨by decide +kernel, by decide +kernel⟩

/-- A parse of the file of the two blocks. -/
def spendParse (start endHeight : Nat) (utxo : Db) : ParseRun :=
  runParse (fileEnv spendDigests spendChain) (sampleParse start endHeight)
    ((fileOf spendChain).map BlkFile.ofRecords) (.openBulk utxo)

theorem spendParse_parsesAs {start endHeight : Nat} {utxo : Db}
    (hrange : ParsesRange (fileEnv spendDigests spendChain) (sampleParse start endHeight)
      (fileOf spendChain) start endHeight)
    (hok : (spendParse start endHeight utxo).result = .ok ()) :
    ParsesAs Nat spendDigests (fileEnv spendDigests spendChain).blockBytes (fileOf spendChain)
      spendChain start endHeight utxo (spendParse start endHeight utxo) :=
  ⟨fileEnv spendDigests spendChain, sampleParse start endHeight, rfl, rfl, one_le_two,
    keepsAll_of_none _ _ rfl, hrange, rfl, hok⟩

/-- Both blocks again. -/
theorem reparse_repeats_iff_sample :
    Repeats 0 2 (spendParse 0 2 .fresh)
      (spendParse 0 2 (spendParse 0 2 .fresh).store.db) := by
  refine (reparse_repeats_iff spendChain_valid (by decide +kernel) holdBlocks_spendChain le_rfl
    (spendParse_parsesAs (by decide +kernel) (by decide +kernel))
    (spendParse_parsesAs (by decide +kernel) (by decide +kernel))).mpr ⟨?_, ?_, ?_⟩
  · intro height k _ hlt htakes
    obtain ⟨block, hblock, hspent, -⟩ := htakes
    have hall : ∀ height < 2, ∀ block ∈ chainBlock spendDigests spendChain height,
        ∀ k ∈ spentKeys block.inputs, ∃ below < height, Leaves spendDigests spendChain below k := by
      decide +kernel
    obtain ⟨below, hbelow, hleaves⟩ := hall height hlt block hblock k hspent
    exact ⟨below, Nat.zero_le _, hbelow, hleaves⟩
  · exact fun _ _ _ hunspent => hunspent
  · intro _ later _ _ _ _ hlater hunspent
    exact absurd hunspent.height_lt (Nat.not_lt.mpr hlater)

/-- The second block again: its input is gone, and with it the spend row and the fee. -/
theorem reparse_last_block_loses_spend :
    ∃ first second : ParseRun,
      ValidChain spendDigests spendChain ∧ SharedHashes spendDigests spendChain spendChain ∧
      HoldBlocks (fileEnv spendDigests spendChain).blockBytes (fileOf spendChain).flatten
        spendChain ∧
      ParsesAs Nat spendDigests (fileEnv spendDigests spendChain).blockBytes (fileOf spendChain)
        spendChain 0 2 .fresh first ∧
      ParsesAs Nat spendDigests (fileEnv spendDigests spendChain).blockBytes (fileOf spendChain)
        spendChain 1 2 first.store.db second ∧
      ¬Repeats 1 2 first second := by
  refine ⟨spendParse 0 2 .fresh, spendParse 1 2 (spendParse 0 2 .fresh).store.db,
    spendChain_valid, by decide +kernel, holdBlocks_spendChain,
    spendParse_parsesAs (by decide +kernel) (by decide +kernel),
    spendParse_parsesAs (by decide +kernel) (by decide +kernel), ?_⟩
  intro hrepeats
  have hdiffer : rowsBetween 1 2 (spendParse 1 2 (spendParse 0 2 .fresh).store.db).sink ≠
      rowsBetween 1 2 (spendParse 0 2 .fresh).sink := by decide +kernel
  exact hdiffer hrepeats.rows

end Bidx
