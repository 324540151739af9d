import Bidx.Pipeline.Resume
import Bidx.Pipeline.Sequential
import Bidx.Store.BlockStack

/-!
# A bulk parse that is cut off

A bulk parse writes past RocksDB's write-ahead log.  When the process dies, the UTXO
directory keeps what had been flushed, the batches of a beginning of the blocks applied.  Of
the output directory stay the parts that had been finished; the one that was open cannot be
read.

At any moment of a parse, whatever its workers have done and whatever has failed, the store
holds the first blocks of the range, and no call has gone to a part outside of it
(`Pipeline.UnderWay`).
-/

namespace Bidx

open KeyValue

/-! ## Calls for some parts -/

/-- The part a call is for. -/
def SinkEvent.part : SinkEvent → Nat
  | .create part => part
  | .push part _ _ => part
  | .finish part => part

/-- The files of a part stay as they are under calls for other parts. -/
theorem OutDir.after_of_notMem {parts : List Nat} {calls : List SinkEvent}
    (hcalls : ∀ call ∈ calls, call.part ∈ parts) (dir : OutDir) {p : Nat} (hp : p ∉ parts) :
    dir.after calls p = dir p := by
  -- Over the calls; the part that is open is one of `parts`.
  have hfold : ∀ f : SinkFiles, (∀ s, f.sink = some s → s.part ∈ parts) →
      (calls.foldl SinkFiles.handle f).dir p = f.dir p := by
    induction calls with
    | nil => exact fun _ _ => rfl
    | cons call calls ih =>
        intro f hopen
        have hcall := hcalls call List.mem_cons_self
        rw [List.foldl_cons, ih fun c hc => hcalls c (List.mem_cons_of_mem _ hc)]
        · cases call with
          | create part =>
              have hne : p ≠ part := fun heq => hp (heq ▸ hcall)
              exact Function.update_of_ne hne _ _
          | push part block spends => rfl
          | finish part =>
              cases hsink : f.sink with
              | none => simp only [SinkFiles.handle, hsink]
              | some s =>
                  have hne : p ≠ s.part := fun heq => hp (heq ▸ hopen s hsink)
                  simp only [SinkFiles.handle, hsink]
                  rw [ParquetSink.finish_eq, Function.update_of_ne hne]
        · intro s hs
          cases call with
          | create part =>
              obtain rfl := Option.some.inj hs
              exact hcall
          | push part block spends =>
              obtain ⟨s', hs', rfl⟩ := Option.map_eq_some_iff.mp hs
              rw [ParquetSink.part_pushRows]
              exact hopen s' hs'
          | finish part =>
              cases hsink : f.sink with
              | none =>
                  simp only [SinkFiles.handle, hsink] at hs
                  contradiction
              | some s' =>
                  simp only [SinkFiles.handle, hsink] at hs
                  contradiction
  exact hfold ⟨dir, none⟩ fun s hs => by contradiction

/-! ## The consumer on its way -/

/-- The blocks a consumer has applied. -/
def Consumer.blocksApplied (c : Consumer) : Nat := c.applied.countP fun call => call.2.isOk

section Consumer

variable (cfg : ConsumeConfig) (D : Digests) (chain : List RawBlock) (start : Nat)
  (store : UtxoStore)

/-- A consumer that has applied the first blocks of its range, and called the sink for parts of
the range only. -/
structure Midway (c : Consumer) : Prop where
  le : start + c.blocksApplied ≤ cfg.endHeight
  store_eq : c.store = store.withUtxo (replayRange D chain start store.db.utxo c.blocksApplied)
  calls : ∀ call ∈ c.sink, call.part ∈ partsOf cfg.blocksPerPart start cfg.endHeight

/-- A consumer between two blocks, with blocks of the chain in its buffer and nothing to
skip. -/
structure Between (c : Consumer) : Prop extends Midway cfg D chain start store c where
  next_eq : c.next = start + c.blocksApplied
  next_lt : c.next < cfg.endHeight
  part : c.partId ∈ partsOf cfg.blocksPerPart start cfg.endHeight
  buffer : ∀ height block, c.buffer.lookup height = some block →
    chainBlock D chain height = some block
  skipped : c.skippedQueue = ∅

/-- What a part of the consumer's loop leaves. -/
def StepMidway : Step → Prop
  | .running c => Between cfg D chain start store c
  | .returned c _ => Midway cfg D chain start store c

variable {cfg D chain start store} {c : Consumer}

theorem Midway.finishSink (h : Midway cfg D chain start store c)
    (hpart : c.partId ∈ partsOf cfg.blocksPerPart start cfg.endHeight) :
    ∃ c' result, Bidx.finishSink cfg c = .returned c' result ∧
      Midway cfg D chain start store c' := by
  unfold Bidx.finishSink
  split
  · exact ⟨c, _, rfl, h⟩
  · refine ⟨_, _, rfl, h.le, h.store_eq, fun call hcall => ?_⟩
    rcases List.mem_append.mp hcall with hcall | hcall
    · exact h.calls call hcall
    · obtain rfl := List.mem_singleton.mp hcall
      exact hpart

/-- The next height, for a consumer that has just handled the one before. -/
theorem Midway.advance (h : Midway cfg D chain start store c)
    (hnext : c.next + 1 = start + c.blocksApplied)
    (hpart : c.partId ∈ partsOf cfg.blocksPerPart start cfg.endHeight)
    (hbuffer : ∀ height block, c.buffer.lookup height = some block →
      chainBlock D chain height = some block) (hskipped : c.skippedQueue = ∅) :
    StepMidway cfg D chain start store (Bidx.advance cfg c) := by
  unfold Bidx.advance
  split
  · exact h
  · split
    · obtain ⟨c', result, hfinish, h'⟩ :=
        Midway.finishSink (c := { c with next := c.next + 1 }) ⟨h.le, h.store_eq, h.calls⟩ hpart
      rw [hfinish]
      exact h'
    · rename_i hlt
      exact ⟨⟨h.le, h.store_eq, h.calls⟩, hnext, Nat.lt_of_not_le hlt, hpart, hbuffer, hskipped⟩

theorem Between.mem_parts (h : Between cfg D chain start store c) :
    c.next / cfg.blocksPerPart ∈ partsOf cfg.blocksPerPart start cfg.endHeight := by
  have hnext := h.next_eq
  exact mem_partsOf.mpr ⟨c.next, by omega, h.next_lt, rfl⟩

theorem Between.rotate (h : Between cfg D chain start store c) :
    (∃ c', rotatePart cfg c = .running c' ∧ Between cfg D chain start store c' ∧
        c'.next = c.next) ∨
      ∃ c' result, rotatePart cfg c = .returned c' result ∧
        Midway cfg D chain start store c' := by
  have hfinished : ∀ call ∈ c.sink ++ [.finish c.partId],
      call.part ∈ partsOf cfg.blocksPerPart start cfg.endHeight := by
    intro call hcall
    rcases List.mem_append.mp hcall with hcall | hcall
    · exact h.calls call hcall
    · obtain rfl := List.mem_singleton.mp hcall
      exact h.part
  unfold rotatePart
  split
  · exact .inl ⟨c, rfl, h, rfl⟩
  · split
    · exact .inr ⟨c, _, rfl, h.toMidway⟩
    · dsimp only
      split
      · exact .inr ⟨_, _, rfl, h.le, h.store_eq, hfinished⟩
      · refine .inl ⟨_, rfl, ⟨⟨h.le, h.store_eq, fun call hcall => ?_⟩, h.next_eq, h.next_lt,
          h.mem_parts, h.buffer, h.skipped⟩, rfl⟩
        rcases List.mem_append.mp hcall with hcall | hcall
        · exact hfinished call hcall
        · obtain rfl := List.mem_singleton.mp hcall
          exact h.mem_parts

theorem Between.apply (hbulk : store.Bulk) (h : Between cfg D chain start store c)
    {block : FullBlock} (hblock : chainBlock D chain c.next = some block) :
    StepMidway cfg D chain start store (applyAndPush cfg block c) := by
  have hbulk' : c.store.Bulk := by
    rw [h.store_eq]
    exact hbulk.withUtxo _
  unfold applyAndPush
  split
  · rename_i stop s happly
    obtain rfl := applyBlock_error_keeps hbulk'.recent happly
    have hcount : Consumer.blocksApplied
        { c with applied := c.applied ++ [(c.next, .error stop)] } = c.blocksApplied := by
      simp [Consumer.blocksApplied, Except.isOk, Except.toBool]
    exact ⟨by rw [hcount]; exact h.le, by rw [hcount]; exact h.store_eq, h.calls⟩
  · rename_i res s happly
    obtain ⟨-, hs⟩ := Prod.mk.inj ((applyFull_of_applyBlock_ok happly).symm.trans
      (applyFull_bulk (cfg.orders c.next) hbulk' (UInt32.ofNat c.next) (chainBlock_shape hblock)))
    have hnext := h.next_eq
    have hlt := h.next_lt
    -- One more block is applied, whatever becomes of its rows.
    have hcount : ∀ sink, Consumer.blocksApplied { c with
        store := s
        applied := c.applied ++ [(c.next, .ok res)]
        missingUtxos := c.missingUtxos + res.missing
        sink } = c.blocksApplied + 1 := fun _ => by
      simp [Consumer.blocksApplied, Except.isOk, Except.toBool]
    have hstore : s = store.withUtxo
        (replayRange D chain start store.db.utxo (c.blocksApplied + 1)) := by
      rw [replayRange_of_block _ (hnext ▸ hblock), ← hnext, hs, h.store_eq]
      rfl
    dsimp only
    split
    · exact ⟨by rw [hcount]; omega, by rw [hcount]; exact hstore, h.calls⟩
    · refine Midway.advance
        ⟨by rw [hcount]; omega, by rw [hcount]; exact hstore, fun call hcall => ?_⟩
        (by rw [hcount]; exact congrArg (· + 1) hnext) h.part h.buffer h.skipped
      rcases List.mem_append.mp hcall with hcall | hcall
      · exact h.calls call hcall
      · obtain rfl := List.mem_singleton.mp hcall
        exact h.part

/-- Before the first block. -/
theorem Between.initial (cfg : ConsumeConfig) (D : Digests) (chain : List RawBlock)
    (store : UtxoStore) (hlt : start < cfg.endHeight) :
    Between cfg D chain start store { initialConsumer cfg start store with sink := [] } where
  le := hlt.le
  store_eq := rfl
  calls _ hcall := absurd hcall List.not_mem_nil
  next_eq := rfl
  next_lt := hlt
  part := mem_partsOf.mpr ⟨start, le_rfl, hlt, rfl⟩
  buffer height block hb := by
    change AList.lookup height (initialConsumer cfg start store).buffer = _ at hb
    rw [initialConsumer, AList.lookup_empty] at hb
    contradiction
  skipped := rfl

end Consumer

/-! ## Any moment of a parse -/

/-- A message with a block of the chain. -/
def WorkItem.IsOf (D : Digests) (chain : List RawBlock) (item : WorkItem) : Prop :=
  ∃ height block, item = .block height block ∧ chainBlock D chain height = some block

namespace Pipeline

/-- Any number of steps, the watchdog's among them. -/
abbrev Reaches (cfg : PipelineConfig) : Pipeline → Pipeline → Prop :=
  Relation.ReflTransGen fun s s' => ∃ actor, s.step cfg actor = some s'

section Moments

variable (cfg : PipelineConfig) (D : Digests) (chain : List RawBlock) (start : Nat)
  (store : UtxoStore)

/-- What is known of the consumer where it stands. -/
def PhaseMidway (c : Consumer) : ConsumerPhase → Prop
  | .received item => Between cfg.consume D chain start store c ∧ item.IsOf D chain
  | .applying block =>
      Between cfg.consume D chain start store c ∧ chainBlock D chain c.next = some block
  | .returned _ => Midway cfg.consume D chain start store c
  | _ => Between cfg.consume D chain start store c

/-- A pipeline on its way through a range of a chain. -/
structure UnderWay (s : Pipeline) : Prop where
  channel : ∀ item ∈ s.channel, item.IsOf D chain
  sending : ∀ item rest, .sending item rest ∈ s.workers → item.IsOf D chain
  phase : PhaseMidway cfg D chain start store s.consumer s.phase

variable {cfg D chain start store} {s s' : Pipeline}

theorem UnderWay.midway (h : UnderWay cfg D chain start store s) :
    Midway cfg.consume D chain start store s.consumer := by
  have hphase := h.phase
  cases hs : s.phase <;> rw [hs] at hphase
  case received => exact hphase.1.toMidway
  case applying => exact hphase.1.toMidway
  case returned => exact hphase
  all_goals exact hphase.toMidway

/-- The consumer has come to the end of a part of its loop. -/
theorem UnderWay.resume (h : UnderWay cfg D chain start store s) {step : Step}
    (hstep : StepMidway cfg.consume D chain start store step) :
    UnderWay cfg D chain start store (s.resume .draining step) := by
  cases step with
  | running c => exact ⟨h.channel, h.sending, hstep⟩
  | returned c result => exact ⟨h.channel, h.sending, hstep⟩

theorem UnderWay.consumerStep (hbulk : store.Bulk) (h : UnderWay cfg D chain start store s)
    (hstep : s.consumerStep cfg = some s') : UnderWay cfg D chain start store s' := by
  have hphase := h.phase
  cases consumerStep_move hstep with
  | createFails hs =>
      rw [hs] at hphase
      exact ⟨h.channel, h.sending, hphase.toMidway⟩
  | creates hs =>
      rw [hs] at hphase
      refine ⟨h.channel, h.sending, ⟨hphase.le, hphase.store_eq, fun call hcall => ?_⟩,
        hphase.next_eq, hphase.next_lt, hphase.part, hphase.buffer, hphase.skipped⟩
      rcases List.mem_append.mp hcall with hcall | hcall
      · exact hphase.calls call hcall
      · obtain rfl := List.mem_singleton.mp hcall
        exact hphase.part
  | receives hs hchannel =>
      rw [hs] at hphase
      have hitems := h.channel
      rw [hchannel] at hitems
      exact ⟨fun item hitem => hitems item (List.mem_cons_of_mem _ hitem), h.sending, hphase,
        hitems _ List.mem_cons_self⟩
  | closes hs =>
      rw [hs] at hphase
      obtain ⟨c, result, hfinish, hmidway⟩ := hphase.toMidway.finishSink hphase.part
      unfold closeChannel
      rw [hfinish]
      cases result with
      | error stop => exact ⟨h.channel, h.sending, hmidway⟩
      | ok =>
          dsimp only
          split
          · exact ⟨h.channel, h.sending, hmidway⟩
          · exact ⟨h.channel, h.sending, hmidway⟩
  | stores hs =>
      rw [hs] at hphase
      obtain ⟨hbetween, height, block, rfl, hblock⟩ := hphase
      refine ⟨h.channel, h.sending, ⟨hbetween.le, hbetween.store_eq, hbetween.calls⟩,
        hbetween.next_eq, hbetween.next_lt, hbetween.part, fun a b hb => ?_, hbetween.skipped⟩
      change (s.consumer.buffer.insert height block).lookup a = some b at hb
      by_cases heq : a = height
      · rw [heq, AList.lookup_insert] at hb
        rw [heq, hblock, hb]
      · rw [AList.lookup_insert_ne heq] at hb
        exact hbetween.buffer a b hb
  | skips hs hmem =>
      -- No message of the chain is a skipped height.
      rw [hs] at hphase
      rw [hphase.skipped] at hmem
      exact absurd hmem (Finset.notMem_empty _)
  | drains hs =>
      rw [hs] at hphase
      exact ⟨h.channel, h.sending, hphase⟩
  | waits hs =>
      rw [hs] at hphase
      exact ⟨h.channel, h.sending, hphase⟩
  | stopsOnTrip hs =>
      rw [hs] at hphase
      exact ⟨h.channel, h.sending, hphase.le, hphase.store_eq, hphase.calls⟩
  | takes hs hlookup =>
      rw [hs] at hphase
      refine ⟨h.channel, h.sending, ⟨⟨hphase.le, hphase.store_eq, hphase.calls⟩, hphase.next_eq,
        hphase.next_lt, hphase.part, fun a b hb => ?_, hphase.skipped⟩,
        hphase.buffer _ _ hlookup⟩
      change (s.consumer.buffer.erase s.consumer.next).lookup a = some b at hb
      by_cases heq : a = s.consumer.next
      · rw [heq, AList.lookup_erase] at hb
        contradiction
      · rw [AList.lookup_erase_ne heq] at hb
        exact hphase.buffer a b hb
  | applies hs hrotate =>
      rw [hs] at hphase
      obtain ⟨hbetween, hblock⟩ := hphase
      rcases hbetween.rotate with ⟨c', hc', hrotated, hnext⟩ | ⟨c', result, hc', -⟩
      · obtain rfl := Step.running.inj (hrotate.symm.trans hc')
        exact h.resume (hrotated.apply hbulk (hnext ▸ hblock))
      · rw [hrotate] at hc'
        contradiction
  | rotateFails hs hrotate =>
      rw [hs] at hphase
      rcases hphase.1.rotate with ⟨c', hc', -⟩ | ⟨c', result, hc', hmidway⟩
      · rw [hrotate] at hc'
        contradiction
      · obtain ⟨rfl, rfl⟩ := Step.returned.inj (hrotate.symm.trans hc')
        exact ⟨h.channel, h.sending, hmidway⟩

theorem UnderWay.workerStep
    (hparse : ∀ height item, cfg.parse height = some item → item.IsOf D chain)
    (h : UnderWay cfg D chain start store s) {i : Nat} {w w' : Worker} {channel : List WorkItem}
    (hw : s.workers[i]? = some w) (hstep : s.workerStep cfg w = some (w', channel)) :
    UnderWay cfg D chain start store { s with workers := s.workers.set i w', channel } := by
  have hmem := List.mem_of_getElem? hw
  -- A worker other than the one that moved sends what it sent before.
  have hothers : (∀ item rest, w' = .sending item rest → item.IsOf D chain) →
      ∀ item rest, .sending item rest ∈ s.workers.set i w' → item.IsOf D chain := by
    intro hnew item rest hsending
    rcases List.mem_or_eq_of_mem_set hsending with hold | heq
    · exact h.sending item rest hold
    · exact hnew item rest heq.symm
  cases workerStep_move hstep with
  | waits => exact ⟨h.channel, hothers fun _ _ heq => (by cases heq), h.phase⟩
  | passes => exact ⟨h.channel, hothers fun _ _ heq => (by cases heq), h.phase⟩
  | isNext => exact ⟨h.channel, hothers fun _ _ heq => (by cases heq), h.phase⟩
  | stopsOnTrip => exact ⟨h.channel, hothers fun _ _ heq => (by cases heq), h.phase⟩
  | retests => exact ⟨h.channel, hothers fun _ _ heq => (by cases heq), h.phase⟩
  | parses hitem =>
      refine ⟨h.channel, hothers fun item rest heq => ?_, h.phase⟩
      obtain ⟨rfl, -⟩ := Worker.sending.inj heq
      exact hparse _ _ hitem
  | parseFails => exact ⟨h.channel, hothers fun _ _ heq => (by cases heq), h.phase⟩
  | sendFails => exact ⟨h.channel, hothers fun _ _ heq => (by cases heq), h.phase⟩
  | sends =>
      rename_i item rest hopen hroom
      refine ⟨fun other hother => ?_, hothers fun _ _ heq => ?_, h.phase⟩
      · rcases List.mem_append.mp hother with hother | hother
        · exact h.channel other hother
        · obtain rfl := List.mem_singleton.mp hother
          exact h.sending _ _ hmem
      · unfold afterSend Worker.next at heq
        split at heq
        · cases heq
        · cases rest <;> cases heq

/-- From the start to any moment. -/
theorem UnderWay.reaches (hbulk : store.Bulk)
    (hparse : ∀ height item, cfg.parse height = some item → item.IsOf D chain)
    (h : UnderWay cfg D chain start store s) (hreaches : Reaches cfg s s') :
    UnderWay cfg D chain start store s' := by
  induction hreaches with
  | refl => exact h
  | tail _ hstep ih =>
      rename_i s₁ s₂
      obtain ⟨actor, hstep⟩ := hstep
      cases actor with
      | consumer => exact ih.consumerStep hbulk hstep
      | worker i =>
          rw [step] at hstep
          split at hstep
          · contradiction
          · rename_i w hw
            split at hstep
            · contradiction
            · rename_i w' channel hworker
              obtain rfl := Option.some.inj hstep
              exact ih.workerStep hparse hw hworker
      | watchdog =>
          obtain rfl := Option.some.inj hstep
          exact ⟨ih.channel, ih.sending, ih.phase⟩

theorem UnderWay.initial (cfg : PipelineConfig) (D : Digests) (chain : List RawBlock)
    (store : UtxoStore) (assigned : List (List Nat)) (hlt : start < cfg.consume.endHeight) :
    UnderWay cfg D chain start store (initial cfg start store assigned) where
  channel _ hitem := absurd hitem List.not_mem_nil
  sending item rest hsending := by
    obtain ⟨heights, -, heq⟩ := List.mem_map.mp hsending
    cases heights <;> cases heq
  phase := Between.initial cfg.consume D chain store hlt

end Moments

end Pipeline

/-! ## What is left of it -/

section Left

variable (W : Type) [AddMonoid W] [LinearOrder W] (D : Digests)
  (blockBytes : BlockLocation → Except BlkError (List UInt8)) (files : List (List BlkRecord))
  (chain : List RawBlock) (blocksPerPart a b : Nat)

/-- The pipeline of a `run_parse` over the heights from `a` up to `b`, with any workers and any
surroundings. -/
def IsParse (pipeline : PipelineConfig) : Prop :=
  ∃ (env : ParseEnv W) (cfg : ParseConfig) (index : ChainIndex) (stats : ChainBuildStats)
    (reorderHigh channelDepth : Nat),
    env.digests = D ∧ env.blockBytes = blockBytes ∧ cfg.blocksPerPart = blocksPerPart ∧
      KeepsAll D chain cfg ∧
      buildChainIndex env.digests env.work env.chainOrders env.fuel
        (files.map BlkFile.ofRecords) = .ok (index, stats) ∧
      parseRange cfg index = .ok (a, b) ∧
      pipeline = parsePipeline env cfg index b reorderHigh channelDepth

/-- Such a parse, started in the directories `dirs` and ended at some moment of it.  The store
keeps what it held at that moment or at an earlier one, `kept` blocks of the range. -/
def CutOff (dirs : ParseDirs) (kept : Nat) (dirs' : ParseDirs) : Prop :=
  ∃ (pipeline : PipelineConfig) (assigned : List (List Nat)) (flushed last : Pipeline),
    IsParse W D blockBytes files chain blocksPerPart a b pipeline ∧
      assigned.flatten.Perm (List.range' a (b - a)) ∧
      Pipeline.Reaches pipeline (.initial pipeline a (.openBulk dirs.utxo) assigned) flushed ∧
      Pipeline.Reaches pipeline flushed last ∧ kept = flushed.consumer.blocksApplied ∧
      dirs' = ⟨flushed.consumer.store.db, dirs.out.after last.consumer.sink⟩

variable {W D blockBytes files chain blocksPerPart a b} {dirs dirs' : ParseDirs} {kept : Nat}
  {pipeline : PipelineConfig}

theorem IsParse.parses (h : IsParse W D blockBytes files chain blocksPerPart a b pipeline)
    (hchain : LinkedChain D chain) (hshared : SharedHashes D chain chain)
    (hfiles : HoldBlocks blockBytes files.flatten chain) :
    a < b ∧ pipeline.consume.endHeight = b ∧ pipeline.consume.blocksPerPart = blocksPerPart ∧
      ∀ height item, pipeline.parse height = some item → item.IsOf D chain := by
  obtain ⟨env, cfg, index, stats, _, _, rfl, rfl, rfl, horphans, hindex, hrange, rfl⟩ := h
  refine ⟨parseRange_lt hrange, rfl, rfl, fun height item hitem => ?_⟩
  obtain ⟨block, rfl, hblock⟩ := parseHeight_eq_ok horphans
    (fun _ hl => hfiles.byHeight hchain hshared hindex hl) (toOption_eq_some.mp hitem)
  exact ⟨height, block, rfl, hblock⟩

/-- The first blocks of the range in the table, and every part outside of the range as it was. -/
theorem CutOff.leaves (h : CutOff W D blockBytes files chain blocksPerPart a b dirs kept dirs')
    (hchain : LinkedChain D chain) (hshared : SharedHashes D chain chain)
    (hfiles : HoldBlocks blockBytes files.flatten chain) :
    a + kept ≤ b ∧
      dirs'.utxo = dirs.utxo.withUtxo (replayRange D chain a dirs.utxo.utxo kept) ∧
      ∀ p, p ∉ partsOf blocksPerPart a b → dirs'.out p = dirs.out p := by
  obtain ⟨pipeline, assigned, flushed, last, hparse, -, hflushed, hlast, rfl, rfl⟩ := h
  obtain ⟨hlt, rfl, rfl, hitems⟩ := hparse.parses hchain hshared hfiles
  have hbulk := UtxoStore.bulk_openBulk dirs.utxo
  have hkept := (Pipeline.UnderWay.initial pipeline D chain (.openBulk dirs.utxo) assigned
    hlt).reaches hbulk hitems hflushed
  refine ⟨hkept.midway.le, ?_, fun p hp => ?_⟩
  · show flushed.consumer.store.db = _
    rw [hkept.midway.store_eq]
    rfl
  · exact OutDir.after_of_notMem (hkept.reaches hbulk hitems hlast).midway.calls dirs.out hp

end Left

end Bidx
