import Bidx.Pipeline.Bench
import Bidx.Pipeline.FromDisk
import Bidx.Pipeline.Sequential
import Bidx.Store.Accounting

/-!
# Repeated trials

`run_bench` repeats a trial on the UTXO directory the trial before left.  The outpoints a
trial counts as missing are the inputs of its blocks without a spend row
(`consumeOrdered_counted`), so the count is that of the range over the table it starts from.

Over the table of the blocks below the range, the first trial misses nothing.  It leaves the
table of the blocks below the end of the range, every later trial leaves that table again, and
all of them miss the same number of outpoints: none, if and only if the range finds again what
it takes (`runBench_reports`).
-/

namespace Bidx

open KeyValue

/-- `run_bench`: trials one after the other, each in the UTXO directory the one before left. -/
def runBench {W : Type} [AddMonoid W] [LinearOrder W] (env : ParseEnv W) (cfg : BenchConfig)
    (files : List BlkFile) : Nat → Db → Except TrialStop (List Nat) × Db
  | 0, utxo => (.ok [], utxo)
  | trials + 1, utxo =>
      let trial := runTrial env cfg files (.openBulk utxo)
      match trial.result with
      | .error stop => (.error stop, trial.store.db)
      | .ok missing =>
          match runBench env cfg files trials trial.store.db with
          | (.ok reports, utxo) => (.ok (missing :: reports), utxo)
          | (.error stop, utxo) => (.error stop, utxo)

@[simp] theorem Db.utxo_withUtxo (db : Db) (S : Table) : (db.withUtxo S).utxo = S := rfl

/-! ## What a consumer counts -/

/-- The inputs of a block that have no spend row. -/
def unresolved (block : FullBlock) (spends : List SpendRow) : Nat :=
  (spendingInputs block.inputs).length - spends.length

/-- The inputs without a spend row among the rows pushed. -/
def unresolvedIn (rows : List (FullBlock × List SpendRow)) : Nat :=
  (rows.map fun e => unresolved e.1 e.2).sum

theorem unresolvedIn_append (rows rows' : List (FullBlock × List SpendRow)) :
    unresolvedIn (rows ++ rows') = unresolvedIn rows + unresolvedIn rows' := by
  rw [unresolvedIn, List.map_append, List.sum_append]
  rfl

theorem unresolvedIn_eq_zero_iff {rows : List (FullBlock × List SpendRow)} :
    unresolvedIn rows = 0 ↔ ∀ e ∈ rows, unresolved e.1 e.2 = 0 := by
  rw [unresolvedIn, List.sum_eq_zero_iff]
  simp only [List.mem_map, forall_exists_index, and_imp, forall_apply_eq_imp_iff₂]

/-- The missing outpoints a consumer has counted are the inputs without a row. -/
def Consumer.Counted (c : Consumer) : Prop :=
  c.missingUtxos = unresolvedIn ((pushes c.sink).map Prod.snd)

/-- What a loop ends with, unless it fails. -/
def StepCounted : Step → Prop
  | .running c => c.Counted
  | .returned c (.ok ()) => c.Counted
  | .returned _ (.error _) => True

/-- A call that returned has a row or a missing outpoint for every input. -/
theorem applyBlock_resolved {order : IterOrder Key UtxoValue} {faults : RocksFaults}
    {s s' : UtxoStore} {height : UInt32} {block : FullBlock} {res : SpendResult}
    (h : s.applyBlock order faults height block.txs block.inputs block.outputs = (.ok res, s')) :
    res.missing = unresolved block res.spends := by
  obtain ⟨st, fees, hloop, -, -, rfl, -⟩ := applyBlock_eq_ok h
  have hbooks := (accounted_initial s.recent height block.txs block.outputs).resolveInputs hloop
  rw [List.nil_append] at hbooks
  have hresolved := hbooks.resolved
  show st.missing = (spendingInputs block.inputs).length - st.spends.length
  omega

section Counted

variable {cfg : ConsumeConfig} {c : Consumer}

theorem StepCounted.andThen {step : Step} {f : Consumer → Step} :
    StepCounted step → (∀ c, c.Counted → StepCounted (f c)) → StepCounted (match step with
      | .running c => f c
      | returned => returned) := by
  intro h hnext
  rcases step with c | ⟨c, stop | ⟨⟩⟩
  · exact hnext c h
  · trivial
  · exact h

/-- Calls without rows leave the count. -/
theorem Consumer.Counted.called (h : c.Counted) {calls : List SinkEvent}
    (hcalls : pushes calls = []) (part : Nat) :
    ({ c with partId := part, sink := c.sink ++ calls } : Consumer).Counted := by
  show c.missingUtxos = unresolvedIn ((pushes (c.sink ++ calls)).map Prod.snd)
  rw [pushes_append, hcalls, List.append_nil]
  exact h

theorem Consumer.Counted.finish (h : c.Counted) : StepCounted (finishSink cfg c) := by
  unfold finishSink
  split
  · trivial
  · exact h.called rfl c.partId

theorem Consumer.Counted.advance (h : c.Counted) : StepCounted (Bidx.advance cfg c) := by
  have hnext : ({ c with next := c.next + 1 } : Consumer).Counted := h
  unfold Bidx.advance
  split
  · trivial
  · split
    · exact hnext.finish
    · exact hnext

theorem Consumer.Counted.skips (h : c.Counted) (rounds : Nat) :
    StepCounted (skipLoop cfg rounds c) := by
  induction rounds generalizing c with
  | zero => exact h
  | succ rounds ih =>
      rw [skipLoop]
      split
      · have herased : ({ c with skippedQueue := c.skippedQueue.erase c.next } :
            Consumer).Counted := h
        exact herased.advance.andThen fun c hc => ih hc
      · exact h

theorem Consumer.Counted.rotate (h : c.Counted) : StepCounted (rotatePart cfg c) := by
  unfold rotatePart
  split
  · exact h
  · split
    · trivial
    · dsimp only
      split
      · trivial
      · exact (h.called rfl (c.next / cfg.blocksPerPart)).called rfl
          (c.next / cfg.blocksPerPart)

theorem Consumer.Counted.apply (h : c.Counted) (block : FullBlock) :
    StepCounted (applyAndPush cfg block c) := by
  unfold applyAndPush
  split
  · trivial
  · rename_i res store happly
    dsimp only
    split
    · trivial
    · refine Consumer.Counted.advance ?_
      -- The missing outpoints of the call are the inputs without a row of its push.
      show c.missingUtxos + res.missing = unresolvedIn ((pushes (c.sink ++ _)).map Prod.snd)
      rw [pushes_append, List.map_append, unresolvedIn_append, ← h, applyBlock_resolved happly]
      rfl

theorem Consumer.Counted.nextBlock (h : c.Counted) (block : FullBlock) :
    StepCounted (applyNext cfg block c) := by
  have hreleased : ({ c with reorderDepth := c.reorderDepth - 1 } : Consumer).Counted := h
  unfold applyNext
  split
  · trivial
  · exact hreleased.rotate.andThen fun c hc => hc.apply block

theorem Consumer.Counted.drain (h : c.Counted) (rounds : Nat) :
    StepCounted (drainLoop cfg rounds c) := by
  induction rounds generalizing c with
  | zero => exact h
  | succ rounds ih =>
      rw [drainLoop]
      split
      · exact h
      · rename_i block hblock
        have herased : ({ c with buffer := c.buffer.erase c.next } : Consumer).Counted := h
        exact (herased.nextBlock block).andThen fun c hc => ih hc

theorem Consumer.Counted.handle (h : c.Counted) (item : WorkItem) :
    StepCounted (handleItem cfg item c) := by
  have hreceived : (receive item c).Counted := by
    cases item <;> exact h
  exact (hreceived.skips _).andThen fun c hc => hc.drain _

theorem Consumer.Counted.loop (h : c.Counted) (items : List WorkItem)
    (hok : (consumeLoop cfg items c).2 = .ok ()) : (consumeLoop cfg items c).1.Counted := by
  induction items generalizing c with
  | nil =>
      have hstep : StepCounted (finishSink cfg c) := h.finish
      unfold consumeLoop at hok ⊢
      generalize finishSink cfg c = step at hstep hok ⊢
      rcases step with c' | ⟨c', stop | ⟨⟩⟩
      · exact hstep
      · contradiction
      · dsimp only at hok ⊢
        split at hok
        · contradiction
        · rename_i hend
          rw [if_neg hend]
          exact hstep
  | cons item items ih =>
      have hstep : StepCounted (handleItem cfg item c) := h.handle item
      rw [consumeLoop] at hok ⊢
      generalize handleItem cfg item c = step at hstep hok ⊢
      rcases step with c' | ⟨c', stop | ⟨⟩⟩
      · exact ih hstep hok
      · contradiction
      · exact hstep

/-- The missing outpoints of a consumer that returns are the inputs without a spend row. -/
theorem consumeOrdered_counted {start : Nat} {store : UtxoStore} {items : List WorkItem}
    (hok : (consumeOrdered cfg start store items).2 = .ok ()) :
    (consumeOrdered cfg start store items).1.Counted := by
  unfold consumeOrdered at hok ⊢
  split at hok
  · contradiction
  · rename_i hcreate
    rw [if_neg hcreate]
    exact Consumer.Counted.loop (c := initialConsumer cfg start store) rfl items hok

end Counted

/-! ## What a range misses -/

/-- The inputs without a spend row when the blocks of the heights from `a` up to `b` are
applied to `S`. -/
def missedOver (D : Digests) (chain : List RawBlock) (a b : Nat) (S : Table) : Nat :=
  unresolvedIn ((filledRange enrich D chain a S (b - a)).map Prod.snd)

/-- Every outpoint the range takes is left by the range below, or stands on the table of the
blocks below its end. -/
def FindsAgain (D : Digests) (chain : List RawBlock) (a b : Nat) : Prop :=
  ∀ height k, a ≤ height → height < b → Takes D chain height k →
    (∃ below, a ≤ below ∧ below < height ∧ Leaves D chain below k) ∨
      replay D (chain.take b) k ≠ none

section Missed

variable {D : Digests} {chain : List RawBlock} {a b height : Nat} {S : Table} {block : FullBlock}

/-- A block resolves its inputs if and only if the table has what it takes. -/
theorem unresolved_filled_eq_zero_iff (hshape : block.WellShaped)
    (hnodup : (spentKeys block.inputs).Nodup) (hdec : S.Decodes) :
    unresolved (filled enrich height S block).1 (filled enrich height S block).2 = 0 ↔
      ∀ k ∈ spentKeys block.inputs, k ∉ createdKeys block.outputs → S k ≠ none := by
  have hspends := (spendResult_rows (UInt32.ofNat height) S hshape hnodup).1
  have hrows : (spendResult (UInt32.ofNat height) block S).spends.length ≤
      (spendingInputs block.inputs).length := by
    rw [hspends]
    exact List.length_filterMap_le _ _
  have hzero : unresolved (filled enrich height S block).1 (filled enrich height S block).2 = 0 ↔
      (spendResult (UInt32.ofNat height) block S).spends.length =
        (spendingInputs block.inputs).length := by
    show (spendingInputs block.inputs).length -
      (spendResult (UInt32.ofNat height) block S).spends.length = 0 ↔ _
    omega
  rw [hzero, hspends, spendRows, List.length_filterMap_eq_countP, spendingInputs,
    List.countP_eq_length]
  simp only [Option.isSome_map, Option.isSome_iff_ne_none]
  constructor
  · intro hfound k hk hnot hnone
    obtain ⟨inp, hinp, rfl⟩ := List.mem_map.mp hk
    refine hfound inp hinp ?_
    rw [resolvedOver_of_notMem _ S hnot, hnone]
    rfl
  · intro hknown inp hinp
    by_cases hcreated : inp.key ∈ createdKeys block.outputs
    · intro hnone
      rw [resolvedOver, resolved, Option.or_eq_none_iff, lookup_seedPending_eq_none] at hnone
      exact hnone.1 hcreated
    · obtain ⟨raw, hraw⟩ := Option.ne_none_iff_exists'.mp
        (hknown inp.key (List.mem_map_of_mem hinp) hcreated)
      obtain ⟨v, hv⟩ := hdec _ raw hraw
      rw [resolvedOver_of_notMem _ S hcreated, hraw, Option.bind_some, hv]
      exact Option.some_ne_none v

/-- A range misses nothing if and only if every block finds what it takes. -/
theorem ValidChain.missedOver_eq_zero_iff (hchain : ValidChain D chain) (hdec : S.Decodes) :
    missedOver D chain a b S = 0 ↔ ∀ height k, a ≤ height → height < b →
      Takes D chain height k → replayRange D chain a S (height - a) k ≠ none := by
  rw [missedOver, unresolvedIn_eq_zero_iff]
  constructor
  · intro hall height k hle hlt htakes
    obtain ⟨block, hblock, hspent, hnot⟩ := htakes
    have hrow : (height, filled enrich height (replayRange D chain a S (height - a)) block) ∈
        filledRange enrich D chain a S (b - a) := mem_filledRange hle (by omega) hblock
    have hzero := hall _ (List.mem_map_of_mem hrow)
    exact (unresolved_filled_eq_zero_iff (chainBlock_shape hblock)
      (hchain.at_block hblock).1.spent_nodup (hchain.decodes_replayRange hdec a _)).mp hzero k
        hspent hnot
  · intro hfound row hrow
    obtain ⟨e, he, rfl⟩ := List.mem_map.mp hrow
    obtain ⟨hle, hlt, block, hblock, hfilled⟩ := filledRange_heights he
    rw [hfilled, unresolved_filled_eq_zero_iff (chainBlock_shape hblock)
      (hchain.at_block hblock).1.spent_nodup (hchain.decodes_replayRange hdec a _)]
    intro k hspent hnot
    exact hfound e.1 k hle (by omega) ⟨block, hblock, hspent, hnot⟩

/-- From the table of the blocks below it, a range finds everything. -/
theorem ValidChain.missedOver_replay (hchain : ValidChain D chain) (hb : b ≤ chain.length) :
    missedOver D chain a b (replay D (chain.take a)) = 0 := by
  rw [hchain.missedOver_eq_zero_iff (hchain.decodes a)]
  intro height k hle hlt htakes
  rw [replayRange_replay D (by omega), show a + (height - a) = height by omega]
  exact htakes.replay_ne_none hchain

/-- From the table of the blocks below its end, it finds what it left itself and what stands
there. -/
theorem ValidChain.missedOver_again_iff (hchain : ValidChain D chain) (hb : b ≤ chain.length) :
    missedOver D chain a b (replay D (chain.take b)) = 0 ↔ FindsAgain D chain a b := by
  rw [hchain.missedOver_eq_zero_iff (hchain.decodes b)]
  constructor
  · intro hfound height k hle hlt htakes
    by_contra hneither
    obtain ⟨hnone, hgone⟩ := not_or.mp hneither
    push Not at hnone
    have hthrough : replayRange D chain a (replay D (chain.take b)) (height - a) k =
        replay D (chain.take b) k :=
      hchain.replayRange_of_untouched (hchain.decodes b) (by omega) fun below hbelow hlt' =>
        hchain.untouched_of_takes htakes hnone hbelow (by omega)
    refine hfound height k hle hlt htakes ?_
    rw [hthrough]
    exact not_not.mp hgone
  · intro hagain height k hle hlt htakes
    by_cases hown : ∃ below, a ≤ below ∧ below < height ∧ Leaves D chain below k
    · obtain ⟨below, hbelow, hlt', hleaves⟩ := hown
      rw [hchain.replayRange_of_touched (hchain.decodes b) (by omega) hbelow (by omega)
        (.inl hleaves), show a + (height - a) = height by omega]
      exact htakes.replay_ne_none hchain
    · have hstands := (hagain height k hle hlt htakes).resolve_left hown
      push Not at hown
      rw [hchain.replayRange_of_untouched (hchain.decodes b) (by omega) fun below hbelow hlt' =>
        hchain.untouched_of_takes htakes hown hbelow (by omega)]
      exact hstands

/-- The table of the blocks below its end is left as it is. -/
theorem ValidChain.replayRange_again (hchain : ValidChain D chain) (hab : a ≤ b)
    (hb : b ≤ chain.length) :
    replayRange D chain a (replay D (chain.take b)) (b - a) = replay D (chain.take b) := by
  have hend : a + (b - a) = b := by omega
  funext k
  by_cases htouched : ∃ height, a ≤ height ∧ height < b ∧
      (Leaves D chain height k ∨ Takes D chain height k)
  · obtain ⟨height, hle, hlt, htouch⟩ := htouched
    rw [hchain.replayRange_of_touched (hchain.decodes b) (by omega) hle (by omega) htouch, hend]
  · refine hchain.replayRange_of_untouched (hchain.decodes b) (by omega) fun height hle hlt => ?_
    rw [hend] at hlt
    exact not_or.mp fun htouch => htouched ⟨height, hle, hlt, htouch⟩

end Missed

/-! ## Trials of a range -/

/-- What a trial that applies blocks returns for a number of missing outpoints. -/
def BenchConfig.verdict (cfg : BenchConfig) (missing : Nat) : Except TrialStop Nat :=
  if 0 < missing ∧ cfg.allowMissingUtxos = false then .error (.coldStore missing) else .ok missing

section Trials

variable {W : Type} {env : ParseEnv W} {cfg : BenchConfig} {index : ChainIndex}
  {chain : List RawBlock} {a b : Nat} {store : UtxoStore}

/-- A trial beside a bulk parse that returns, with the count of the parse's consumer. -/
theorem trialOver_of_returns (hrecorder : ∀ height, env.faults.recorder height = false)
    (hutxo : cfg.mode.needsUtxo = true)
    (hok : (parseOver env cfg.toParse index a b store).result = .ok ()) :
    ∃ c : Consumer, c.Counted ∧
      c.sink = (parseOver env cfg.toParse index a b store).sink ∧
      (trialOver env cfg index a b store).store =
        (parseOver env cfg.toParse index a b store).store ∧
      (trialOver env cfg index a b store).result = cfg.verdict c.missingUtxos := by
  have hpart : cfg.toParse.blocksPerPart = cfg.blocksPerPart := rfl
  have hrun : MeasuredRun cfg.mode store _ _ := stages_measured hrecorder index a b
  unfold trialOver
  unfold parseOver at hok ⊢
  dsimp only at hok ⊢
  rw [hpart] at hok ⊢
  have hcounts := @consumeOrdered_counted ⟨b, cfg.blocksPerPart, env.faults, env.orders⟩ a store
    (parseStage env cfg.toParse index (env.workerOrder (List.range' a (b - a)))).1
  generalize benchConsume _ _ _ _ _ = bench at hrun ⊢
  generalize consumeOrdered _ _ _ _ = prod at hrun hok hcounts ⊢
  generalize (parseStage env cfg.toParse index
    (env.workerOrder (List.range' a (b - a)))).2 = stage at hok ⊢
  obtain ⟨bc, bresult⟩ := bench
  obtain ⟨c, cresult⟩ := prod
  rcases stage with stop | ⟨⟩
  · contradiction
  · rcases cresult with cause | ⟨⟩
    · contradiction
    · obtain rfl : bresult = .ok () := hrun.returns rfl
      have hmeasured : Measured cfg.mode store bc c := hrun.measured (.inl rfl)
      obtain ⟨hstore, -, hmissing⟩ := hmeasured.withUtxo hutxo
      refine ⟨c, hcounts rfl, rfl, ?_⟩
      dsimp only
      rw [BenchConfig.verdict, hmissing]
      by_cases hcold : 0 < c.missingUtxos ∧ cfg.allowMissingUtxos = false
      · rw [if_pos ⟨hutxo, hcold⟩, if_pos hcold]
        exact ⟨hstore, rfl⟩
      · rw [if_neg fun h => hcold h.2, if_neg hcold]
        exact ⟨hstore, rfl⟩

/-- A trial over a range of a valid chain counts what the range misses over the table it
starts from, and leaves the table of the range applied to it. -/
theorem trialOver_missed (hchain : ValidChain env.digests chain)
    (hlocated : List.Forall₂ (fun location raw => env.blockBytes location = .ok raw)
      index.byHeight chain)
    (hfaults : env.faults = .none) (hutxo : cfg.mode.needsUtxo = true) (hab : a < b)
    (hb : b ≤ chain.length) (utxo : Db) :
    (trialOver env cfg index a b (.openBulk utxo)).result =
        cfg.verdict (missedOver env.digests chain a b utxo.utxo) ∧
      (trialOver env cfg index a b (.openBulk utxo)).store.db =
        utxo.withUtxo (replayRange env.digests chain a utxo.utxo (b - a)) := by
  have hrecorder : ∀ height, env.faults.recorder height = false := by
    rw [hfaults]
    exact fun _ => rfl
  have horphans : KeepsAll env.digests chain cfg.toParse := keepsAll_of_none _ _ rfl
  have hbulk : (UtxoStore.openBulk utxo).Bulk :=
    UtxoStore.bulk_openBulk utxo
  have hok := parseOver_returns hlocated horphans hab hbulk hfaults fun height _ hlt =>
    hchain.exists_chainBlock (by omega)
  have hparsed := parseOver_parsedRange (located_byHeight hlocated) horphans hab hbulk hok
  obtain ⟨c, hcounted, hsink, hstore, hresult⟩ := trialOver_of_returns hrecorder hutxo hok
  have hmissing : c.missingUtxos = missedOver env.digests chain a b utxo.utxo := by
    rw [hcounted, hsink, hparsed.pushes_eq, List.map_map]
    rfl
  rw [hresult, hstore, hmissing, hparsed.store_eq]
  exact ⟨rfl, rfl⟩

/-! ## Repeats -/

theorem parseRange_end_le {parse : ParseConfig} (h : parseRange parse index = .ok (a, b)) :
    b ≤ index.byHeight.length := by
  unfold parseRange ChainIndex.tipHeight at h
  split at h
  · contradiction
  · rename_i tip htip
    split at htip
    · contradiction
    · obtain rfl := Option.some.inj htip
      dsimp only at h
      split at h
      · contradiction
      · obtain ⟨-, rfl⟩ := Prod.mk.inj (Except.ok.inj h)
        omega

variable [AddMonoid W] [LinearOrder W] {files : List BlkFile} {stats : ChainBuildStats}

/-- A benchmark whose index leads to a valid chain, of a mode that applies blocks. -/
structure BenchOver (env : ParseEnv W) (cfg : BenchConfig) (files : List BlkFile)
    (chain : List RawBlock) (a b : Nat) : Prop where
  valid : ValidChain env.digests chain
  range : ∃ index stats, buildChainIndex env.digests env.work env.chainOrders env.fuel files =
      .ok (index, stats) ∧
    List.Forall₂ (fun location raw => env.blockBytes location = .ok raw) index.byHeight chain ∧
    parseRange cfg.toParse index = .ok (a, b)
  faults : env.faults = .none
  needsUtxo : cfg.mode.needsUtxo = true

theorem BenchOver.lt (h : BenchOver env cfg files chain a b) : a < b := by
  obtain ⟨index, stats, -, -, hrange⟩ := h.range
  exact parseRange_lt hrange

theorem BenchOver.le_length (h : BenchOver env cfg files chain a b) : b ≤ chain.length := by
  obtain ⟨index, stats, -, hlocated, hrange⟩ := h.range
  rw [← hlocated.length_eq]
  exact parseRange_end_le hrange

/-- One trial. -/
theorem BenchOver.trial (h : BenchOver env cfg files chain a b) (utxo : Db) :
    (runTrial env cfg files (.openBulk utxo)).result =
        cfg.verdict (missedOver env.digests chain a b utxo.utxo) ∧
      (runTrial env cfg files (.openBulk utxo)).store.db =
        utxo.withUtxo (replayRange env.digests chain a utxo.utxo (b - a)) := by
  obtain ⟨index, stats, hindex, hlocated, hrange⟩ := h.range
  have hmode : cfg.mode ≠ .headers := by
    intro hheaders
    have hneeds := h.needsUtxo
    rw [hheaders] at hneeds
    contradiction
  have hrun : runTrial env cfg files (.openBulk utxo) =
      trialOver env cfg index a b (.openBulk utxo) := by
    rw [runTrial, hindex]
    dsimp only
    rw [if_neg hmode, hrange]
  rw [hrun]
  exact trialOver_missed h.valid hlocated h.faults h.needsUtxo h.lt h.le_length utxo

/-- What trials return that all miss the same number of outpoints. -/
def BenchConfig.repeated (cfg : BenchConfig) (missing trials : Nat) :
    Except TrialStop (List Nat) :=
  if 0 < missing ∧ 0 < trials ∧ cfg.allowMissingUtxos = false then
    .error (.coldStore missing)
  else
    .ok (List.replicate trials missing)

/-- Trials on the table of the blocks below the end of the range. -/
theorem BenchOver.again (h : BenchOver env cfg files chain a b) (utxo : Db) (trials : Nat) :
    runBench env cfg files trials (utxo.withUtxo (replay env.digests (chain.take b))) =
      (cfg.repeated (missedOver env.digests chain a b (replay env.digests (chain.take b))) trials,
        utxo.withUtxo (replay env.digests (chain.take b))) := by
  induction trials with
  | zero =>
      rw [runBench, BenchConfig.repeated, if_neg (fun hcold => Nat.lt_irrefl 0 hcold.2.1)]
      rfl
  | succ trials ih =>
      obtain ⟨hresult, hdb⟩ := h.trial (utxo.withUtxo (replay env.digests (chain.take b)))
      rw [Db.utxo_withUtxo] at hresult
      rw [Db.utxo_withUtxo, h.valid.replayRange_again h.lt.le h.le_length] at hdb
      -- The directory is the one the trial found.
      have hsame : (runTrial env cfg files
          (.openBulk (utxo.withUtxo (replay env.digests (chain.take b))))).store.db =
          utxo.withUtxo (replay env.digests (chain.take b)) := hdb
      rw [runBench, hresult, hsame]
      unfold BenchConfig.repeated at ih ⊢
      unfold BenchConfig.verdict
      by_cases hcold : 0 < missedOver env.digests chain a b (replay env.digests (chain.take b)) ∧
          cfg.allowMissingUtxos = false
      · rw [if_pos hcold, if_pos ⟨hcold.1, Nat.succ_pos trials, hcold.2⟩]
      · rw [if_neg fun h => hcold ⟨h.1, h.2.2⟩] at ih
        rw [if_neg hcold, if_neg fun h => hcold ⟨h.1, h.2.2⟩]
        dsimp only
        rw [ih]
        rfl

/-- Over the table of the blocks below its range, a benchmark's first trial misses nothing and
every later one misses the same number of outpoints: none, if and only if the range finds again
what it takes.  So a repeated benchmark is refused unless it does, or the flag allows it. -/
theorem runBench_reports (h : BenchOver env cfg files chain a b) {utxo : Db}
    (hutxo : utxo.utxo = replay env.digests (chain.take a)) :
    ∃ later, (later = 0 ↔ FindsAgain env.digests chain a b) ∧
      ∀ trials, runBench env cfg files (trials + 1) utxo =
        (if 0 < later ∧ 0 < trials ∧ cfg.allowMissingUtxos = false then
            .error (.coldStore later)
          else
            .ok (0 :: List.replicate trials later),
          utxo.withUtxo (replay env.digests (chain.take b))) := by
  refine ⟨_, h.valid.missedOver_again_iff h.le_length, fun trials => ?_⟩
  obtain ⟨hresult, hdb⟩ := h.trial utxo
  have hend : a + (b - a) = b := by
    have := h.lt
    omega
  have hreplay : replayRange env.digests chain a (replay env.digests (chain.take a)) (b - a) =
      replay env.digests (chain.take b) := by
    rw [replayRange_replay env.digests (by rw [hend]; exact h.le_length), hend]
  have hfirst : cfg.verdict 0 = .ok 0 := if_neg fun hcold => Nat.lt_irrefl 0 hcold.1
  rw [hutxo, h.valid.missedOver_replay h.le_length, hfirst] at hresult
  rw [hutxo, hreplay] at hdb
  rw [runBench, hresult, hdb]
  dsimp only
  rw [h.again utxo trials, BenchConfig.repeated]
  by_cases hcold : 0 < missedOver env.digests chain a b (replay env.digests (chain.take b)) ∧
      0 < trials ∧ cfg.allowMissingUtxos = false
  · rw [if_pos hcold, if_pos hcold]
  · rw [if_neg hcold, if_neg hcold]

end Trials

/-! A second trial of the last block: the output it takes is gone. -/

theorem spendChain_located :
    ∃ index stats, buildChainIndex (fileEnv spendDigests spendChain).digests
        (fileEnv spendDigests spendChain).work (fileEnv spendDigests spendChain).chainOrders
        (fileEnv spendDigests spendChain).fuel ((fileOf spendChain).map BlkFile.ofRecords) =
          .ok (index, stats) ∧
      List.Forall₂ (fun location raw =>
        (fileEnv spendDigests spendChain).blockBytes location = .ok raw) index.byHeight
          spendChain ∧
      parseRange (sampleParse 1 2) index = .ok (1, 2) := by
  have hindexed : ∃ e ∈ (buildChainIndex (fileEnv spendDigests spendChain).digests
      (fileEnv spendDigests spendChain).work (fileEnv spendDigests spendChain).chainOrders
      (fileEnv spendDigests spendChain).fuel ((fileOf spendChain).map BlkFile.ofRecords)).toOption,
      e.1.byHeight.map (fileEnv spendDigests spendChain).blockBytes = spendChain.map .ok ∧
        parseRange (sampleParse 1 2) e.1 = .ok (1, 2) := by
    decide +kernel
  obtain ⟨⟨index, stats⟩, hbuild, hbytes, hrange⟩ := hindexed
  refine ⟨index, stats, toOption_eq_some.mp hbuild, ?_, hrange⟩
  rw [← List.forall₂_eq_eq_eq, List.forall₂_map_left_iff, List.forall₂_map_right_iff] at hbytes
  exact hbytes

theorem spendChain_benchOver (mode : BenchMode) (hutxo : mode.needsUtxo = true) :
    BenchOver (fileEnv spendDigests spendChain) (lastBlockBench mode)
      ((fileOf spendChain).map BlkFile.ofRecords) spendChain 1 2 where
  valid := spendChain_valid
  range := spendChain_located
  faults := rfl
  needsUtxo := hutxo

/-- The second block takes an output of the first. -/
theorem not_findsAgain_spendChain : ¬FindsAgain spendDigests spendChain 1 2 := by
  have htaken : ¬∀ block ∈ chainBlock spendDigests spendChain 1, ∀ k ∈ spentKeys block.inputs,
      k ∉ createdKeys block.outputs → replay spendDigests (spendChain.take 2) k ≠ none := by
    decide +kernel
  push Not at htaken
  obtain ⟨block, hblock, k, hspent, hnot, hgone⟩ := htaken
  have htakes : Takes spendDigests spendChain 1 k := ⟨block, hblock, hspent, hnot⟩
  intro hagain
  rcases hagain 1 k le_rfl one_lt_two htakes with ⟨below, hle, hlt, -⟩ | hstands
  · omega
  · exact hstands hgone

/-- One trial passes, and any further one is refused. -/
theorem runBench_reports_sample :
    ∃ later, later ≠ 0 ∧ ∀ trials,
      runBench (fileEnv spendDigests spendChain) (lastBlockBench .full)
        ((fileOf spendChain).map BlkFile.ofRecords) (trials + 1)
        (spendParse 0 1 .fresh).store.db =
      (if 0 < later ∧ 0 < trials ∧ (lastBlockBench .full).allowMissingUtxos = false then
          .error (.coldStore later)
        else
          .ok (0 :: List.replicate trials later),
        (spendParse 0 1 .fresh).store.db.withUtxo
          (replay spendDigests (spendChain.take 2))) := by
  have hseeded : (spendParse 0 1 .fresh).store.db.utxo =
      replay spendDigests (spendChain.take 1) := by
    have hparse : ParsesAs Nat spendDigests (fileEnv spendDigests spendChain).blockBytes
        (fileOf spendChain) spendChain 0 1 .fresh (spendParse 0 1 .fresh) :=
      spendParse_parsesAs (by decide +kernel) (by decide +kernel)
    obtain ⟨_, hparsed⟩ := hparse.parsedRange spendChain_valid.linkedChain (by decide +kernel)
      holdBlocks_spendChain
    have hempty : (UtxoStore.openBulk .fresh).db.utxo =
        replay spendDigests (spendChain.take 0) := by
      rw [List.take_zero]
      rfl
    rw [hparsed.db_eq hempty, Db.utxo_withUtxo]
  obtain ⟨later, hagain, hreports⟩ :=
    runBench_reports (spendChain_benchOver .full rfl) hseeded
  exact ⟨later, fun hzero => not_findsAgain_spendChain (hagain.mp hzero), hreports⟩

end Bidx
