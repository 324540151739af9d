import Bidx.Pipeline.Interrupted
import Bidx.Pipeline.Trials

/-!
# The same command again

Nothing records how far a bulk parse came that was cut off, so the remedy is the same command
again, on whatever table the attempts so far have left.  The blocks they applied are applied
once more; an outpoint that the range touches ends as if they never had been, and one it does
not touch they have not touched either.

So the table is always that of an undisturbed parse.  The part files are, exactly when the
blocks that an attempt had kept take nothing from below the range (`rerun_sameOutput_iff`):
what they took from there is gone from the table, and its spend rows are lost.  A parse from
the first height on has nothing below its range (`takesOwn_zero`).
-/

namespace Bidx

open KeyValue

/-! ## The table that attempts leave -/

/-- The blocks of the heights from `a` up to `n` take only what earlier ones of them left. -/
def TakesOwn (D : Digests) (chain : List RawBlock) (a n : Nat) : Prop :=
  ∀ height k, a ≤ height → height < n → Takes D chain height k →
    ∃ below, a ≤ below ∧ below < height ∧ Leaves D chain below k

/-- The table of the blocks below `a`, after blocks of the heights up to `n` have been applied
to it, from `a` on and any number of times. -/
structure Worn (D : Digests) (chain : List RawBlock) (a n : Nat) (T : Table) : Prop where
  decodes : T.Decodes
  /-- What no block of them touches is as below them. -/
  untouched : ∀ k, (∀ height, a ≤ height → height < n →
    ¬Leaves D chain height k ∧ ¬Takes D chain height k) → T k = replay D (chain.take a) k
  /-- What a block of them took from below is gone, or a later output has come in its place. -/
  taken : ∀ height k, a ≤ height → height < n → Takes D chain height k →
    (∀ below, a ≤ below → below < height → ¬Leaves D chain below k) →
      T k = none ∨ ∃ v, T k = some (UtxoValue.encode v) ∧ height < v.height.toNat

section Table

variable {D : Digests} {chain : List RawBlock} {a b n height : Nat} {T : Table} {k : Key}

/-- Below the first height there is nothing to take. -/
theorem takesOwn_zero (hchain : ValidChain D chain) (n : Nat) : TakesOwn D chain 0 n := by
  intro height k _ _ htakes
  obtain ⟨v, -, hunspent⟩ :=
    hchain.exists_unspentAt htakes.height_lt.le (htakes.replay_ne_none hchain)
  exact ⟨_, Nat.zero_le _, hunspent.height_lt, hunspent.leaves⟩

theorem Worn.start (hchain : ValidChain D chain) (a : Nat) :
    Worn D chain a a (replay D (chain.take a)) where
  decodes := hchain.decodes a
  untouched _ _ := rfl
  taken _ _ hle hlt := absurd hlt (Nat.not_lt.mpr hle)

/-- One more attempt, with the blocks up to a height of its own. -/
theorem Worn.attempt (h : Worn D chain a n T) (hchain : ValidChain D chain) {m : Nat}
    (hlen : a + m ≤ chain.length) :
    Worn D chain a (max n (a + m)) (replayRange D chain a T m) where
  decodes := hchain.decodes_replayRange h.decodes a m
  untouched k hnone := by
    rw [hchain.replayRange_of_untouched h.decodes hlen fun height hle hlt =>
      hnone height hle (by omega)]
    exact h.untouched k fun height hle hlt => hnone height hle (by omega)
  taken height k hle hlt htakes hnone := by
    by_cases htouched : ∃ below, a ≤ below ∧ below < a + m ∧
        (Leaves D chain below k ∨ Takes D chain below k)
    · obtain ⟨below, hbelow, hbound, htouch⟩ := htouched
      rw [hchain.replayRange_of_touched h.decodes hlen hbelow hbound htouch]
      have hbefore : height < a + m := by
        by_contra hge
        -- What a later block takes from below the range is not touched before it.
        have hfree := hchain.untouched_of_takes htakes hnone hbelow (by omega)
        exact htouch.elim hfree.1 hfree.2
      exact hchain.last_entry_of_takes hbefore hlen htakes
    · have hfree : ∀ below, a ≤ below → below < a + m →
          ¬Leaves D chain below k ∧ ¬Takes D chain below k := fun below hbelow hbound =>
        not_or.mp fun htouch => htouched ⟨below, hbelow, hbound, htouch⟩
      have hafter : a + m ≤ height := by
        by_contra hlow
        exact (hfree height hle (by omega)).2 htakes
      rw [hchain.replayRange_of_untouched h.decodes hlen hfree]
      exact h.taken height k hle (by omega) htakes hnone

/-- The whole range again: the table of the blocks below its end. -/
theorem Worn.table_eq (h : Worn D chain a n T) (hchain : ValidChain D chain) (hab : a ≤ b)
    (hnb : n ≤ b) (hb : b ≤ chain.length) :
    replayRange D chain a T (b - a) = replay D (chain.take b) := by
  have hend : a + (b - a) = b := by omega
  have hclean := @replayRange_replay chain a (b - a) D (by omega)
  rw [hend] at hclean
  funext k
  by_cases htouched : ∃ height, a ≤ height ∧ height < b ∧
      (Leaves D chain height k ∨ Takes D chain height k)
  · obtain ⟨height, hle, hlt, htouch⟩ := htouched
    rw [hchain.replayRange_of_touched h.decodes (by omega) hle (by omega) htouch, hend]
  · have hfree : ∀ height, a ≤ height → height < b →
        ¬Leaves D chain height k ∧ ¬Takes D chain height k := fun height hle hlt =>
      not_or.mp fun htouch => htouched ⟨height, hle, hlt, htouch⟩
    rw [← hclean,
      hchain.replayRange_of_untouched h.decodes (by omega) fun height hle hlt =>
        hfree height hle (by omega),
      hchain.replayRange_of_untouched (hchain.decodes a) (by omega) fun height hle hlt =>
        hfree height hle (by omega)]
    exact h.untouched k fun height hle hlt => hfree height hle (by omega)

/-! ## The rows of the command -/

/-- What a block takes from below the range comes through the blocks before it. -/
theorem Worn.entry_of_taken (h : Worn D chain a n T) (hchain : ValidChain D chain)
    (hle : a ≤ height) (htakes : Takes D chain height k)
    (hnone : ∀ below, a ≤ below → below < height → ¬Leaves D chain below k) :
    replayRange D chain a T (height - a) k = T k := by
  have hlt := htakes.height_lt
  exact hchain.replayRange_of_untouched h.decodes (by omega) fun below hbelow hbound =>
    hchain.untouched_of_takes htakes hnone hbelow (by omega)

/-- Where no kept block takes from below the range, every block finds what it takes. -/
theorem Worn.filledRange_eq (h : Worn D chain a n T) (hchain : ValidChain D chain)
    (hb : b ≤ chain.length) (hown : TakesOwn D chain a n) :
    filledRange enrich D chain a T (b - a) = laterRows D chain a b := by
  rw [laterRows, filledRange_eq_iff]
  intro height block hle hlt hblock
  have hclean : replayRange D chain a (replay D (chain.take a)) (height - a) =
      replay D (chain.take height) := by
    rw [replayRange_replay D (by omega), show a + (height - a) = height by omega]
  obtain ⟨hspends, hfees⟩ := spendResult_congr (UInt32.ofNat height)
    (S := replayRange D chain a T (height - a)) (T := replay D (chain.take height))
    (chainBlock_shape hblock) (hchain.at_block hblock).1.spent_nodup (by
      intro k hspent hnot
      have htakes : Takes D chain height k := ⟨block, hblock, hspent, hnot⟩
      by_cases hleft : ∃ below, a ≤ below ∧ below < height ∧ Leaves D chain below k
      · obtain ⟨below, hbelow, hbound, hleaves⟩ := hleft
        rw [hchain.replayRange_of_touched h.decodes (by omega) hbelow (by omega) (.inl hleaves),
          show a + (height - a) = height by omega]
      · have hnone : ∀ below, a ≤ below → below < height → ¬Leaves D chain below k :=
          fun below hbelow hbound hleaves => hleft ⟨below, hbelow, hbound, hleaves⟩
        -- Then the block is above those kept, and the table is as it was.
        have habove : n ≤ height := by
          by_contra hlow
          exact hleft (hown height k hle (by omega) htakes)
        rw [h.entry_of_taken hchain hle htakes hnone, ← hclean,
          (Worn.start hchain a).entry_of_taken hchain hle htakes hnone]
        exact h.untouched k fun below hbelow hbound =>
          hchain.untouched_of_takes htakes hnone hbelow (by omega))
  rw [hclean, filled, filled, hspends, hfees]

end Table

section Rows

variable {D : Digests} {chain : List RawBlock} {a b n height p blocksPerPart : Nat} {S T : Table}
  {k : Key} {block : FullBlock} {row : SpendRow}

theorem mem_spendResult (hchain : ValidChain D chain)
    (hblock : chainBlock D chain height = some block) :
    row ∈ (spendResult (UInt32.ofNat height) block S).spends ↔
      ∃ inp ∈ spendingInputs block.inputs, ∃ v,
        resolvedOver (UInt32.ofNat height) block S inp = some v ∧
          spendRow (UInt32.ofNat height) inp v = row := by
  rw [(spendResult_rows _ S (chainBlock_shape hblock) (hchain.at_block hblock).1.spent_nodup).1]
  simp only [spendRows, spendingInputs, List.mem_filterMap, Option.map_eq_some_iff]

theorem mem_partRows_spends {rows : List (Nat × FullBlock × List SpendRow)} :
    row ∈ (partRows blocksPerPart p rows).spends ↔
      ∃ e ∈ rows, e.1 / blocksPerPart = p ∧ row ∈ e.2.2 := by
  rw [partRows, Rows.spends_flatten, List.mem_flatMap]
  simp only [List.mem_map, List.mem_filter, decide_eq_true_eq]
  constructor
  · rintro ⟨_, ⟨e, ⟨he, hpart⟩, rfl⟩, hrow⟩
    exact ⟨e, he, hpart, hrow⟩
  · rintro ⟨e, he, hpart, hrow⟩
    exact ⟨_, ⟨e, ⟨he, hpart⟩, rfl⟩, hrow⟩

/-- The row of an outpoint that a kept block takes from below the range is lost. -/
theorem Worn.spend_lost (h : Worn D chain a n T) (hchain : ValidChain D chain)
    (blocksPerPart : Nat) (hnb : n ≤ b) (hb : b ≤ chain.length) (hle : a ≤ height)
    (hlt : height < n) (htakes : Takes D chain height k)
    (hnone : ∀ below, a ≤ below → below < height → ¬Leaves D chain below k) :
    ∃ row, row ∈ (partRows blocksPerPart (height / blocksPerPart) (laterRows D chain a b)).spends ∧
      row ∉ (partRows blocksPerPart (height / blocksPerPart)
        (filledRange enrich D chain a T (b - a))).spends := by
  obtain ⟨v, hv, hunspent⟩ :=
    hchain.exists_unspentAt htakes.height_lt.le (htakes.replay_ne_none hchain)
  obtain ⟨block, hblock, hspent, hnot⟩ := id htakes
  obtain ⟨inp, hinp, rfl⟩ := List.mem_map.mp hspent
  have hlen := hchain.length_lt
  refine ⟨spendRow (UInt32.ofNat height) inp v, ?_, fun hrow => ?_⟩
  · -- In a parse of the range alone the block finds the output.
    have hfound : resolvedOver (UInt32.ofNat height) block (replay D (chain.take height)) inp =
        some v := by
      rw [resolvedOver_of_notMem _ _ hnot, hv, Option.bind_some, UtxoValue.decode_encode]
    have hentry := @mem_filledRange D chain a (b - a) height (replay D (chain.take a)) block enrich
      hle (by omega) hblock
    rw [replayRange_replay D (by omega), show a + (height - a) = height by omega] at hentry
    exact mem_partRows_spends.mpr ⟨_, hentry, rfl,
      (mem_spendResult hchain hblock).mpr ⟨inp, hinp, v, hfound, rfl⟩⟩
  · obtain ⟨e, he, -, hmem⟩ := mem_partRows_spends.mp hrow
    obtain ⟨hle', hlt', block', hblock', hfilled⟩ := filledRange_heights he
    rw [hfilled] at hmem
    obtain ⟨inp', hinp', w, hw, heq⟩ := (mem_spendResult hchain hblock').mp hmem
    -- The row names its block, its outpoint and the height of the output.
    have hheight : e.1 = height := by
      have hname := congrArg (fun row : SpendRow => row.height.toNat) heq
      change (UInt32.ofNat e.1).toNat = (UInt32.ofNat height).toNat at hname
      rwa [toNat_ofNat_height (by omega), toNat_ofNat_height (by omega)] at hname
    have hkey : inp'.key = inp.key :=
      congrArg (fun row : SpendRow => makeKey row.spentTxid row.spentVout) heq
    have hspentHeight : w.height = v.height := congrArg SpendRow.spentHeight heq
    rw [hheight] at hblock' hw
    obtain rfl := Option.some.inj (hblock.symm.trans hblock')
    rw [resolvedOver_of_notMem _ _ (hkey ▸ hnot), hkey,
      h.entry_of_taken hchain hle htakes hnone] at hw
    rcases h.taken height inp.key hle hlt htakes hnone with hgone | ⟨u, hu, hlater⟩
    · rw [hgone] at hw
      contradiction
    · rw [hu, Option.bind_some, UtxoValue.decode_encode] at hw
      obtain rfl := Option.some.inj hw
      have := hunspent.height_lt
      rw [hspentHeight] at hlater
      omega

end Rows

/-! ## Attempts and the command that completes -/

section Attempts

variable (W : Type) [AddMonoid W] [LinearOrder W] (D : Digests)
  (blockBytes : BlockLocation → Except BlkError (List UInt8)) (files : List (List BlkRecord))
  (chain : List RawBlock) (blocksPerPart a b : Nat)

/-- Any number of attempts at a parse of the heights from `a` up to `b`; `kept` is the most
blocks that one of them has left in the UTXO directory. -/
inductive Attempts (dirs : ParseDirs) : Nat → ParseDirs → Prop
  | none : Attempts dirs 0 dirs
  | again {most kept : Nat} {dirs₁ dirs₂ : ParseDirs} (before : Attempts dirs most dirs₁)
      (last : CutOff W D blockBytes files chain blocksPerPart a b dirs₁ kept dirs₂) :
      Attempts dirs (max most kept) dirs₂

variable {W D blockBytes files chain blocksPerPart a b} {dirs dirs₁ dirs₂ clean : ParseDirs}
  {kept : Nat}

/-- What the attempts have left. -/
theorem Attempts.leave (h : Attempts W D blockBytes files chain blocksPerPart a b dirs kept dirs₁)
    (hchain : ValidChain D chain) (hshared : SharedHashes D chain chain)
    (hfiles : HoldBlocks blockBytes files.flatten chain) (hab : a ≤ b) (hb : b ≤ chain.length)
    (hbelow : dirs.utxo.utxo = replay D (chain.take a)) :
    a + kept ≤ b ∧ (∃ T, Worn D chain a (a + kept) T ∧ dirs₁.utxo = dirs.utxo.withUtxo T) ∧
      ∀ p, p ∉ partsOf blocksPerPart a b → dirs₁.out p = dirs.out p := by
  induction h with
  | none => exact ⟨hab, ⟨_, .start hchain a, by rw [← hbelow]; rfl⟩, fun _ _ => rfl⟩
  | @again most kept dirs₁ dirs₂ _ last ih =>
      obtain ⟨hmost, ⟨T, hworn, hutxo⟩, hout⟩ := ih
      obtain ⟨hkept, hutxo', hout'⟩ := last.leaves hchain.linkedChain hshared hfiles
      refine ⟨by omega, ⟨replayRange D chain a T kept, ?_, ?_⟩,
        fun p hp => (hout' p hp).trans (hout p hp)⟩
      · rw [← Nat.add_max_add_left]
        exact hworn.attempt hchain (by omega)
      · rw [hutxo', hutxo]
        rfl

/-- The command that completes after any number of attempts leaves the UTXO directory of the
same command without them.  It leaves the same part files if and only if the blocks kept take
only what the range itself has left below them. -/
theorem rerun_sameOutput_iff (hchain : ValidChain D chain) (hshared : SharedHashes D chain chain)
    (hfiles : HoldBlocks blockBytes files.flatten chain)
    (hbelow : dirs.utxo.utxo = replay D (chain.take a))
    (hattempts : Attempts W D blockBytes files chain blocksPerPart a b dirs kept dirs₁)
    (hagain : ParsesTo W D blockBytes files chain blocksPerPart a b dirs₁ dirs₂)
    (hclean : ParsesTo W D blockBytes files chain blocksPerPart a b dirs clean) :
    dirs₂.utxo = clean.utxo ∧ (dirs₂.out = clean.out ↔ TakesOwn D chain a (a + kept)) := by
  obtain ⟨run, hrun, rfl⟩ := hagain.parsedRange hchain.linkedChain hshared hfiles
  obtain ⟨run', hrun', rfl⟩ := hclean.parsedRange hchain.linkedChain hshared hfiles
  have hab := hrun.start_lt
  have hb := hrun.end_le
  obtain ⟨hkept, ⟨T, hworn, hutxo⟩, hout⟩ :=
    hattempts.leave hchain hshared hfiles hab.le hb hbelow
  have htable : (UtxoStore.openBulk dirs₁.utxo).db.utxo = T := by
    show dirs₁.utxo.utxo = T
    rw [hutxo]
    rfl
  -- The parts outside of the range are as they were, those inside hold the rows of the command.
  have hparts : ∀ p, dirs₁.out.after run.sink p = if p ∈ partsOf blocksPerPart a b then
      partRows blocksPerPart p (filledRange enrich D chain a T (b - a)) else dirs.out p := by
    intro p
    rw [hrun.out_eq, htable]
    by_cases hp : p ∈ partsOf blocksPerPart a b
    · rw [if_pos hp, if_pos hp]
    · rw [if_neg hp, if_neg hp, hout p hp]
  have hparts' : ∀ p, dirs.out.after run'.sink p = if p ∈ partsOf blocksPerPart a b then
      partRows blocksPerPart p (laterRows D chain a b) else dirs.out p := by
    intro p
    rw [hrun'.out_eq]
    show (if _ then partRows _ _ (filledRange enrich D chain a dirs.utxo.utxo _) else _) = _
    rw [hbelow]
    rfl
  refine ⟨?_, fun hsame => ?_, fun hown => ?_⟩
  · show run.store.db = run'.store.db
    rw [hrun'.db_eq hbelow, hrun.store_eq, htable, hworn.table_eq hchain hab.le hkept hb]
    show dirs₁.utxo.withUtxo _ = _
    rw [hutxo]
    rfl
  · by_contra hnot
    simp only [TakesOwn, not_forall, not_exists, not_and] at hnot
    obtain ⟨height, k, hle, hlt, htakes, hnone⟩ := hnot
    have hmem : height / blocksPerPart ∈ partsOf blocksPerPart a b :=
      mem_partsOf.mpr ⟨height, hle, by omega, rfl⟩
    obtain ⟨row, hrow, hlost⟩ := hworn.spend_lost hchain blocksPerPart hkept hb hle hlt htakes
      hnone
    have hpart := congrFun hsame (height / blocksPerPart)
    change dirs₁.out.after run.sink _ = dirs.out.after run'.sink _ at hpart
    rw [hparts, hparts', if_pos hmem, if_pos hmem] at hpart
    exact hlost (hpart ▸ hrow)
  · funext p
    show dirs₁.out.after run.sink p = dirs.out.after run'.sink p
    rw [hparts, hparts', hworn.filledRange_eq hchain hb hown]

end Attempts

/-! The second block of two, applied in an attempt that then fails: what it takes is gone. -/

/-- A UTXO directory with the table of the first block. -/
def seededDirs : ParseDirs := ⟨Db.fresh.withUtxo (replay spendDigests (spendChain.take 1)), .fresh⟩

/-- The directories after a parse of the second block. -/
def lastBlockParsed (dirs : ParseDirs) : ParseDirs :=
  (runParseIn (fileEnv spendDigests spendChain) (sampleParse 1 2)
    ((fileOf spendChain).map BlkFile.ofRecords) dirs).2

theorem lastBlockParsed_parsesTo (dirs : ParseDirs) :
    ParsesTo Nat spendDigests (fileEnv spendDigests spendChain).blockBytes (fileOf spendChain)
      spendChain 2 1 2 dirs (lastBlockParsed dirs) := by
  obtain ⟨index, stats, hindex, hlocated, hrange⟩ := spendChain_located
  have hkeeps : KeepsAll spendDigests spendChain (sampleParse 1 2) := keepsAll_of_none _ _ rfl
  have hok : (parseOver (fileEnv spendDigests spendChain) (sampleParse 1 2) index 1 2
      (.openBulk dirs.utxo)).result = .ok () :=
    parseOver_returns hlocated hkeeps one_lt_two (UtxoStore.bulk_openBulk _) rfl
      fun _ _ hlt => spendChain_valid.exists_chainBlock hlt
  refine ⟨fileEnv spendDigests spendChain, sampleParse 1 2, rfl, rfl, rfl, hkeeps,
    ⟨index, stats, hindex, hrange⟩, Prod.ext ?_ rfl⟩
  show (runParse _ _ _ _).result = _
  rw [runParse, hindex]
  simp only [hrange]
  exact hok

/-- The rows of the second block cannot be written. -/
def failingEnv : ParseEnv Nat :=
  { fileEnv spendDigests spendChain with
    faults := { ConsumeFaults.none with push := fun height => height == 1 } }

/-- The index of the file. -/
def spendIndex : ChainIndex :=
  match buildChainIndex failingEnv.digests failingEnv.work failingEnv.chainOrders
      failingEnv.fuel ((fileOf spendChain).map BlkFile.ofRecords) with
  | .ok (index, _) => index
  | .error _ => ⟨[], ∅⟩

def failingParse : PipelineConfig := parsePipeline failingEnv (sampleParse 1 2) spendIndex 2 0 1

/-- The worker sends the block, and the consumer applies it. -/
def failingSchedule : List Actor := List.replicate 3 (.worker 0) ++ List.replicate 6 .consumer

theorem failingParse_isParse :
    IsParse Nat spendDigests (fileEnv spendDigests spendChain).blockBytes (fileOf spendChain)
      spendChain 2 1 2 failingParse := by
  obtain ⟨index, stats, hindex, -, hrange⟩ := spendChain_located
  change buildChainIndex failingEnv.digests failingEnv.work failingEnv.chainOrders
    failingEnv.fuel _ = _ at hindex
  have hspend : spendIndex = index := by rw [spendIndex, hindex]
  exact ⟨failingEnv, sampleParse 1 2, index, stats, 0, 1, rfl, rfl, rfl,
    keepsAll_of_none _ _ rfl, hindex, hrange, by rw [failingParse, hspend]⟩

theorem Pipeline.reaches_of_runSchedule {cfg : PipelineConfig} {actors : List Actor}
    {s s' : Pipeline} (h : runSchedule cfg actors s = some s') : Reaches cfg s s' := by
  induction actors generalizing s with
  | nil =>
      obtain rfl := Option.some.inj h
      exact .refl
  | cons actor actors ih =>
      rw [runSchedule] at h
      split at h
      · contradiction
      · rename_i next hnext
        exact (Relation.ReflTransGen.single ⟨actor, hnext⟩).trans (ih h)

theorem not_takesOwn_spendChain : ¬TakesOwn spendDigests spendChain 1 2 := by
  have htaken : ¬∀ block ∈ chainBlock spendDigests spendChain 1, ∀ k ∈ spentKeys block.inputs,
      k ∈ createdKeys block.outputs := by
    decide +kernel
  push Not at htaken
  obtain ⟨block, hblock, k, hspent, hnot⟩ := htaken
  intro hown
  obtain ⟨below, hle, hlt, -⟩ := hown 1 k le_rfl one_lt_two ⟨block, hblock, hspent, hnot⟩
  omega

theorem rerun_sameOutput_iff_sample :
    ∃ dirs₁, Attempts Nat spendDigests (fileEnv spendDigests spendChain).blockBytes
        (fileOf spendChain) spendChain 2 1 2 seededDirs 1 dirs₁ ∧
      (lastBlockParsed dirs₁).utxo = (lastBlockParsed seededDirs).utxo ∧
      (lastBlockParsed dirs₁).out ≠ (lastBlockParsed seededDirs).out := by
  have hcheck : (Pipeline.runSchedule failingParse failingSchedule
      (.initial failingParse 1 (.openBulk seededDirs.utxo) [[1]])).any
        (fun s => s.consumer.blocksApplied == 1) = true := by
    decide +kernel
  obtain ⟨s, hs, hkept⟩ := (Option.any_eq_true _ _).mp hcheck
  have hcut : CutOff Nat spendDigests (fileEnv spendDigests spendChain).blockBytes
      (fileOf spendChain) spendChain 2 1 2 seededDirs 1
      ⟨s.consumer.store.db, seededDirs.out.after s.consumer.sink⟩ :=
    ⟨failingParse, [[1]], s, s, failingParse_isParse, .refl _,
      Pipeline.reaches_of_runSchedule hs, .refl, (beq_iff_eq.mp hkept).symm, rfl⟩
  have hattempts := Attempts.again .none hcut
  have hbelow : seededDirs.utxo.utxo = replay spendDigests (spendChain.take 1) := by
    rw [seededDirs, Db.utxo_withUtxo]
  obtain ⟨hutxo, hout⟩ := rerun_sameOutput_iff spendChain_valid (by decide +kernel)
    holdBlocks_spendChain hbelow hattempts (lastBlockParsed_parsesTo _)
    (lastBlockParsed_parsesTo seededDirs)
  exact ⟨_, hattempts, hutxo, fun hsame => not_takesOwn_spendChain (hout.mp hsame)⟩

end Bidx
