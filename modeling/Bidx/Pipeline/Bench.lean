import Bidx.Live.Orphans
import Bidx.Pipeline.Reprocess

/-!
# The benchmark

`bench` measures a bulk parse with a consumer of its own, `bench_consume`, which leaves out
the stages its mode does not measure.  A trial is worth something only as far as that consumer
does what `consume_ordered` does.  In full mode it does the same, failures included; in any
other mode it does the part of its stages whenever the bulk parse returns
(`runTrial_measures`).

It records no disk checkpoints, so a parse that one of them fails is left out.  Otherwise it
differs in what no parse of the active chain shows: it refuses skipped heights, and counts a
block out of the reorder buffer before it polls the watchdog.  Timings, lookup counters and the
progress bar are left out.
-/

namespace Bidx

open KeyValue

/-! ## Modes -/

inductive BenchMode where
  | full
  | headers
  | parse
  | drain
  | utxo
  | sink
deriving DecidableEq

namespace BenchMode

def needsUtxo : BenchMode → Bool
  | .full => true
  | .utxo => true
  | _ => false

def needsSink : BenchMode → Bool
  | .full => true
  | .sink => true
  | _ => false

def needsFeeEnrichment (mode : BenchMode) : Bool := mode.needsUtxo

end BenchMode

inductive BenchStop where
  | consume (stop : ConsumeStop)
  | skipped (height : Nat)
deriving DecidableEq

/-! ## The consumer

The variables are those of `consume_ordered`; the skipped queue stays empty. -/

section Consume

variable (cfg : ConsumeConfig) (mode : BenchMode)

/-- Finish the sink, when there is one. -/
def benchFinish (c : Consumer) : Step :=
  if mode.needsSink then finishSink cfg c else .returned c (.ok ())

/-- Rotate the part file, when there is one. -/
def benchRotate (c : Consumer) : Step :=
  if mode.needsSink then rotatePart cfg c else .running c

/-- The end of a round. -/
def benchAdvance (c : Consumer) : Step :=
  if cfg.endHeight ≤ c.next + 1 then
    benchFinish cfg mode { c with next := c.next + 1 }
  else
    .running { c with next := c.next + 1 }

/-- Push the rows of a block, when there is a sink. -/
def benchPush (block : FullBlock) (spends : List SpendRow) (c : Consumer) : Step :=
  if mode.needsSink then
    if cfg.faults.push c.next then
      .returned c (.error .sink)
    else
      benchAdvance cfg mode { c with sink := c.sink ++ [.push c.partId block spends] }
  else
    benchAdvance cfg mode c

/-- Apply a block, when there is a store. -/
def benchApply (block : FullBlock) (c : Consumer) : Step :=
  if mode.needsUtxo then
    match c.store.applyBlock (cfg.orders c.next) (cfg.faults.rocks c.next)
        (UInt32.ofNat c.next) block.txs block.inputs block.outputs with
    | (.error stop, store) =>
        .returned { c with store, applied := c.applied ++ [(c.next, .error stop)] }
          (.error (.utxo stop))
    | (.ok res, store) =>
        let applied := { c with
          store
          applied := c.applied ++ [(c.next, .ok res)]
          missingUtxos := c.missingUtxos + res.missing }
        benchPush cfg mode (if mode.needsFeeEnrichment then enrich block res.fees else block)
          res.spends applied
  else
    benchPush cfg mode block [] c

/-- One round, the block already out of the buffer. -/
def benchNext (block : FullBlock) (c : Consumer) : Step :=
  let counted := { c with reorderDepth := c.reorderDepth - 1 }
  if cfg.faults.tripped c.next then
    .returned counted (.error .watchdog)
  else
    match benchRotate cfg mode counted with
    | .running c => benchApply cfg mode block c
    | returned => returned

/-- `while let Some(block) = buffer.remove(&next)`. -/
def benchDrain : Nat → Consumer → Step
  | 0, c => .running c
  | rounds + 1, c =>
      match c.buffer.lookup c.next with
      | none => .running c
      | some block =>
          match benchNext cfg mode block { c with buffer := c.buffer.erase c.next } with
          | .running c => benchDrain rounds c
          | returned => returned

/-- The receive loop. -/
def benchLoop : List WorkItem → Consumer → Consumer × Except BenchStop Unit
  | [], c =>
      match benchFinish cfg mode c with
      | .returned c (.ok ()) =>
          if c.next < cfg.endHeight then
            (c, .error (.consume (.channelClosedEarly c.next cfg.endHeight)))
          else
            (c, .ok ())
      | .returned c (.error stop) => (c, .error (.consume stop))
      | .running c => (c, .ok ())
  | .skipped height :: _, c => (c, .error (.skipped height))
  | .block height block :: items, c =>
      let received := receive (.block height block) c
      match benchDrain cfg mode received.buffer.keys.length received with
      | .running c => benchLoop items c
      | .returned c result => (c, result.mapError .consume)

/-- The consumer before the first message. -/
def benchInitial (start : Nat) (store : UtxoStore) : Consumer :=
  let initial := initialConsumer cfg start store
  { initial with sink := if mode.needsSink then initial.sink else [] }

/-- `bench_consume`. -/
def benchConsume (start : Nat) (store : UtxoStore) (items : List WorkItem) :
    Consumer × Except BenchStop Unit :=
  if mode.needsSink ∧ cfg.faults.create (start / cfg.blocksPerPart) then
    ({ benchInitial cfg mode start store with sink := [] }, .error (.consume .sink))
  else
    benchLoop cfg mode items (benchInitial cfg mode start store)

end Consume

/-! ## A trial -/

structure BenchConfig where
  mode : BenchMode
  start : Nat
  endHeight : Option Nat
  blocksPerPart : Nat
  allowMissingUtxos : Bool

/-- The bulk parse a benchmark measures: one that asks no node for orphans. -/
def BenchConfig.toParse (cfg : BenchConfig) : ParseConfig :=
  ⟨cfg.start, cfg.endHeight, cfg.blocksPerPart, none⟩

inductive TrialStop where
  | parse (stop : ParseStop)
  | consume (stop : BenchStop)
  | coldStore (missing : Nat)
deriving DecidableEq

/-- What a trial returns (of its report, the missing outpoints), the store it leaves and its
calls to the sink. -/
structure TrialRun where
  result : Except TrialStop Nat
  store : UtxoStore
  sink : List SinkEvent

section Trial

variable {W : Type}

/-- The two stages of a trial over a range. -/
def trialOver (env : ParseEnv W) (cfg : BenchConfig) (index : ChainIndex) (start endHeight : Nat)
    (store : UtxoStore) : TrialRun :=
  let stage := parseStage env cfg.toParse index
    (env.workerOrder (List.range' start (endHeight - start)))
  let consumed := benchConsume ⟨endHeight, cfg.blocksPerPart, env.faults, env.orders⟩ cfg.mode
    start store stage.1
  match stage.2, consumed.2 with
  | .error stop, _ => ⟨.error (.parse stop), consumed.1.store, consumed.1.sink⟩
  | .ok (), .error stop => ⟨.error (.consume stop), consumed.1.store, consumed.1.sink⟩
  | .ok (), .ok () =>
      -- A cold store makes `apply_block` look free.
      if cfg.mode.needsUtxo ∧ 0 < consumed.1.missingUtxos ∧ cfg.allowMissingUtxos = false then
        ⟨.error (.coldStore consumed.1.missingUtxos), consumed.1.store, consumed.1.sink⟩
      else
        ⟨.ok consumed.1.missingUtxos, consumed.1.store, consumed.1.sink⟩

variable [AddMonoid W] [LinearOrder W]

/-- `run_trial`. -/
def runTrial (env : ParseEnv W) (cfg : BenchConfig) (files : List BlkFile) (store : UtxoStore) :
    TrialRun :=
  match buildChainIndex env.digests env.work env.chainOrders env.fuel files with
  | .error stop => ⟨.error (.parse (.chain stop)), store, []⟩
  | .ok (index, _) =>
      -- The header pass is all there is to measure: the range is not looked at.
      if cfg.mode = .headers then
        ⟨.ok 0, store, []⟩
      else
        match parseRange cfg.toParse index with
        | .error stop => ⟨.error (.parse stop), store, []⟩
        | .ok (start, endHeight) => trialOver env cfg index start endHeight store

end Trial

/-! ## The two consumers side by side -/

/-- A call of the benchmark's sink beside one of the bulk parse: without a store the rows have
no fees and there are no spends. -/
def SameCall (mode : BenchMode) : SinkEvent → SinkEvent → Prop
  | .create part, .create part' => part = part'
  | .finish part, .finish part' => part = part'
  | .push part block spends, .push part' block' spends' =>
      part = part' ∧ if mode.needsUtxo then block = block' ∧ spends = spends'
        else (∃ fees, block' = enrich block fees) ∧ spends = []
  | _, _ => False

/-- In full mode the rows are the same. -/
theorem SameCall.eq_of_full {mode : BenchMode} (hfull : mode = .full) :
    ∀ {call call' : SinkEvent}, SameCall mode call call' → call = call'
  | .create _, .create _, hpart => congrArg SinkEvent.create hpart
  | .finish _, .finish _, hpart => congrArg SinkEvent.finish hpart
  | .push .., .push .., ⟨hpart, hrows⟩ => by
      subst hfull
      obtain ⟨rfl, rfl⟩ : _ ∧ _ := hrows
      rw [hpart]

/-- The benchmark's consumer beside that of the bulk parse: it has done the part of its
stages, over the store it was given. -/
structure Measured (mode : BenchMode) (store : UtxoStore) (b c : Consumer) : Prop where
  buffer : b.buffer = c.buffer
  next : b.next = c.next
  skipped : c.skippedQueue = ∅
  withUtxo : mode.needsUtxo = true →
    b.store = c.store ∧ b.applied = c.applied ∧ b.missingUtxos = c.missingUtxos
  withoutUtxo : mode.needsUtxo = false → b.store = store ∧ b.missingUtxos = 0
  withSink : mode.needsSink = true →
    b.partId = c.partId ∧ List.Forall₂ (SameCall mode) b.sink c.sink
  withoutSink : mode.needsSink = false → b.sink = []

/-- A step of the bulk parse, and the benchmark's: a failure has to show in full mode only. -/
def MeasuredStep (mode : BenchMode) (store : UtxoStore) (bench : Step) : Step → Prop
  | .running c =>
      ∃ b, bench = .running b ∧ Measured mode store b c ∧ b.reorderDepth = c.reorderDepth
  | .returned c (.ok ()) => ∃ b, bench = .returned b (.ok ()) ∧ Measured mode store b c
  | .returned c (.error stop) =>
      mode = .full → ∃ b, bench = .returned b (.error stop) ∧ Measured mode store b c

section Steps

variable {cfg : ConsumeConfig} {mode : BenchMode} {store : UtxoStore} {b c : Consumer}

theorem BenchMode.needsUtxo_of_full (h : mode = .full) : mode.needsUtxo = true := by
  rw [h]
  rfl

theorem BenchMode.needsSink_of_full (h : mode = .full) : mode.needsSink = true := by
  rw [h]
  rfl

/-- A loop goes on in both consumers, or in neither. -/
theorem MeasuredStep.andThen {bench prod : Step} {f g : Consumer → Step}
    (hnext : ∀ b c, Measured mode store b c → b.reorderDepth = c.reorderDepth →
      MeasuredStep mode store (f b) (g c)) :
    MeasuredStep mode store bench prod → MeasuredStep mode store
      (match bench with
        | .running b => f b
        | returned => returned)
      (match prod with
        | .running c => g c
        | returned => returned) := by
  intro h
  match prod, h with
  | .running c, ⟨b, hb, hmeasured, hdepth⟩ =>
      rw [hb]
      exact hnext b c hmeasured hdepth
  | .returned c (.ok ()), ⟨b, hb, hmeasured⟩ =>
      rw [hb]
      exact ⟨b, rfl, hmeasured⟩
  | .returned c (.error stop), hfails =>
      intro hfull
      obtain ⟨b, hb, hmeasured⟩ := hfails hfull
      rw [hb]
      exact ⟨b, rfl, hmeasured⟩

/-- Both sinks are called. -/
theorem Measured.called (h : Measured mode store b c) (hsink : mode.needsSink = true)
    {call call' : SinkEvent} (hcall : SameCall mode call call') :
    Measured mode store { b with sink := b.sink ++ [call] }
      { c with sink := c.sink ++ [call'] } where
  buffer := h.buffer
  next := h.next
  skipped := h.skipped
  withUtxo := h.withUtxo
  withoutUtxo := h.withoutUtxo
  withSink _ := ⟨(h.withSink hsink).1, List.rel_append (h.withSink hsink).2 (.cons hcall .nil)⟩
  withoutSink hnone := by
    rw [hsink] at hnone
    contradiction

/-- There is no sink to be called. -/
theorem Measured.unsunk (h : Measured mode store b c) (hnone : mode.needsSink = false)
    (part : Nat) (calls : List SinkEvent) :
    Measured mode store b { c with partId := part, sink := calls } where
  buffer := h.buffer
  next := h.next
  skipped := h.skipped
  withUtxo := h.withUtxo
  withoutUtxo := h.withoutUtxo
  withSink hsink := by
    rw [hnone] at hsink
    contradiction
  withoutSink := h.withoutSink

theorem Measured.finish (h : Measured mode store b c) :
    MeasuredStep mode store (benchFinish cfg mode b) (finishSink cfg c) := by
  unfold benchFinish finishSink
  cases hsink : mode.needsSink with
  | true =>
      obtain ⟨hpart, -⟩ := h.withSink hsink
      have hfault : cfg.faults.finish b.partId = cfg.faults.finish c.partId := by rw [hpart]
      have hcall : SameCall mode (.finish b.partId) (.finish c.partId) := hpart
      rw [if_pos rfl, hfault]
      split
      · exact fun _ => ⟨b, rfl, h⟩
      · exact ⟨_, rfl, h.called hsink hcall⟩
  | false =>
      rw [if_neg Bool.false_ne_true]
      split
      · intro hfull
        rw [BenchMode.needsSink_of_full hfull] at hsink
        contradiction
      · exact ⟨b, rfl, h.unsunk hsink _ _⟩

theorem Measured.rotate (h : Measured mode store b c) (hdepth : b.reorderDepth = c.reorderDepth) :
    MeasuredStep mode store (benchRotate cfg mode b) (rotatePart cfg c) := by
  have hnext : b.next / cfg.blocksPerPart = c.next / cfg.blocksPerPart := by rw [h.next]
  unfold benchRotate rotatePart
  cases hsink : mode.needsSink with
  | true =>
      obtain ⟨hpart, hcalls⟩ := h.withSink hsink
      have hsame : b.next / cfg.blocksPerPart = b.partId ↔
          c.next / cfg.blocksPerPart = c.partId := by rw [hnext, hpart]
      have hfault : cfg.faults.finish b.partId = cfg.faults.finish c.partId := by rw [hpart]
      have hcall : SameCall mode (.finish b.partId) (.finish c.partId) := hpart
      rw [if_pos rfl, if_congr hsame rfl rfl, hfault, hnext]
      split
      · exact ⟨b, rfl, h, hdepth⟩
      · split
        · exact fun _ => ⟨b, rfl, h⟩
        · have hfinished := h.called hsink hcall
          have hmoved : Measured mode store
              { b with partId := c.next / cfg.blocksPerPart, sink := b.sink ++ [.finish b.partId] }
              { c with
                partId := c.next / cfg.blocksPerPart
                sink := c.sink ++ [.finish c.partId] } :=
            { hfinished with withSink := fun _ => ⟨rfl, (hfinished.withSink hsink).2⟩ }
          have hcreate : SameCall mode (.create (c.next / cfg.blocksPerPart))
              (.create (c.next / cfg.blocksPerPart)) := rfl
          dsimp only
          split
          · exact fun _ => ⟨_, rfl, hmoved⟩
          · exact ⟨_, rfl, hmoved.called hsink hcreate, hdepth⟩
  | false =>
      have hnotFull : mode ≠ .full := by
        intro hfull
        rw [BenchMode.needsSink_of_full hfull] at hsink
        contradiction
      rw [if_neg Bool.false_ne_true]
      split
      · exact ⟨b, rfl, h, hdepth⟩
      · split
        · exact fun hfull => absurd hfull hnotFull
        · dsimp only
          split
          · exact fun hfull => absurd hfull hnotFull
          · exact ⟨b, rfl, h.unsunk hsink _ _, hdepth⟩

theorem Measured.advance (hrecorder : ∀ height, cfg.faults.recorder height = false)
    (h : Measured mode store b c) (hdepth : b.reorderDepth = c.reorderDepth) :
    MeasuredStep mode store (benchAdvance cfg mode b) (advance cfg c) := by
  have hnext : Measured mode store { b with next := b.next + 1 } { c with next := c.next + 1 } :=
    { h with next := congrArg (· + 1) h.next }
  have hend : cfg.endHeight ≤ b.next + 1 ↔ cfg.endHeight ≤ c.next + 1 := by rw [h.next]
  unfold benchAdvance Bidx.advance
  rw [hrecorder, if_neg Bool.false_ne_true, if_congr hend rfl rfl]
  split
  · exact hnext.finish
  · exact ⟨_, rfl, hnext, hdepth⟩

/-- The rows of a block. -/
theorem Measured.push (hrecorder : ∀ height, cfg.faults.recorder height = false)
    (h : Measured mode store b c) (hdepth : b.reorderDepth = c.reorderDepth)
    {block block' : FullBlock} {spends spends' : List SpendRow}
    (hrows : SameCall mode (.push 0 block spends) (.push 0 block' spends')) :
    MeasuredStep mode store (benchPush cfg mode block spends b)
      (if cfg.faults.push c.next then
        .returned c (.error .sink)
      else
        Bidx.advance cfg { c with sink := c.sink ++ [.push c.partId block' spends'] }) := by
  have hfault : cfg.faults.push b.next = cfg.faults.push c.next := by rw [h.next]
  unfold benchPush
  cases hsink : mode.needsSink with
  | true =>
      have hcall : SameCall mode (.push b.partId block spends) (.push c.partId block' spends') :=
        ⟨(h.withSink hsink).1, hrows.2⟩
      rw [if_pos rfl, hfault]
      split
      · exact fun _ => ⟨b, rfl, h⟩
      · exact (h.called hsink hcall).advance hrecorder hdepth
  | false =>
      rw [if_neg Bool.false_ne_true]
      split
      · intro hfull
        rw [BenchMode.needsSink_of_full hfull] at hsink
        contradiction
      · exact (h.unsunk hsink _ _).advance hrecorder hdepth

theorem Measured.apply (hrecorder : ∀ height, cfg.faults.recorder height = false)
    (h : Measured mode store b c) (hdepth : b.reorderDepth = c.reorderDepth) (block : FullBlock) :
    MeasuredStep mode store (benchApply cfg mode block b) (applyAndPush cfg block c) := by
  unfold benchApply applyAndPush
  cases hutxo : mode.needsUtxo with
  | true =>
      obtain ⟨hstore, happlied, hmissing⟩ := h.withUtxo hutxo
      have hsome : mode.needsUtxo ≠ false := by
        rw [hutxo]
        exact Bool.noConfusion
      have hcalled : b.store.applyBlock (cfg.orders b.next) (cfg.faults.rocks b.next)
            (UInt32.ofNat b.next) block.txs block.inputs block.outputs =
          c.store.applyBlock (cfg.orders c.next) (cfg.faults.rocks c.next)
            (UInt32.ofNat c.next) block.txs block.inputs block.outputs := by
        rw [hstore, h.next]
      have hlog : ∀ result, b.applied ++ [(b.next, result)] = c.applied ++ [(c.next, result)] := by
        intro result
        rw [happlied, h.next]
      rw [if_pos rfl, hcalled]
      rcases c.store.applyBlock (cfg.orders c.next) (cfg.faults.rocks c.next) (UInt32.ofNat c.next)
        block.txs block.inputs block.outputs with ⟨stop | res, after⟩
      · refine fun _ => ⟨_, rfl, ?_⟩
        exact { h with
          withUtxo := fun _ => ⟨rfl, hlog _, hmissing⟩
          withoutUtxo := fun hnone => absurd hnone hsome }
      · have happly : Measured mode store
            { b with
              store := after
              applied := b.applied ++ [(b.next, .ok res)]
              missingUtxos := b.missingUtxos + res.missing }
            { c with
              store := after
              applied := c.applied ++ [(c.next, .ok res)]
              missingUtxos := c.missingUtxos + res.missing } :=
          { h with
            withUtxo := fun _ => ⟨rfl, hlog _, congrArg (· + res.missing) hmissing⟩
            withoutUtxo := fun hnone => absurd hnone hsome }
        have hfees : mode.needsFeeEnrichment = true := hutxo
        dsimp only
        rw [if_pos hfees]
        refine happly.push hrecorder hdepth ⟨rfl, ?_⟩
        rw [if_pos hutxo]
        exact ⟨rfl, rfl⟩
  | false =>
      rw [if_neg Bool.false_ne_true]
      rcases c.store.applyBlock (cfg.orders c.next) (cfg.faults.rocks c.next) (UInt32.ofNat c.next)
        block.txs block.inputs block.outputs with ⟨stop | res, after⟩
      · intro hfull
        rw [BenchMode.needsUtxo_of_full hfull] at hutxo
        contradiction
      · have happly : Measured mode store b
            { c with
              store := after
              applied := c.applied ++ [(c.next, .ok res)]
              missingUtxos := c.missingUtxos + res.missing } :=
          { h with
            withUtxo := fun hsome => by
              rw [hutxo] at hsome
              contradiction }
        refine happly.push hrecorder hdepth ⟨rfl, ?_⟩
        rw [hutxo, if_neg Bool.false_ne_true]
        exact ⟨⟨_, rfl⟩, rfl⟩

theorem Measured.nextBlock (hrecorder : ∀ height, cfg.faults.recorder height = false)
    (h : Measured mode store b c) (hdepth : b.reorderDepth = c.reorderDepth)
    (block : FullBlock) :
    MeasuredStep mode store (benchNext cfg mode block b) (applyNext cfg block c) := by
  have hfault : cfg.faults.tripped b.next = cfg.faults.tripped c.next := by rw [h.next]
  have hcounted : Measured mode store { b with reorderDepth := b.reorderDepth - 1 }
      { c with reorderDepth := c.reorderDepth - 1 } := { h with }
  have hdepth' : b.reorderDepth - 1 = c.reorderDepth - 1 := by rw [hdepth]
  unfold benchNext applyNext
  dsimp only
  rw [hfault]
  split
  · exact fun _ => ⟨_, rfl, { h with }⟩
  · refine MeasuredStep.andThen ?_ (hcounted.rotate hdepth')
    intro b' c' hrotated hdepth''
    exact hrotated.apply hrecorder hdepth'' block

theorem Measured.drain (hrecorder : ∀ height, cfg.faults.recorder height = false)
    (h : Measured mode store b c) (hdepth : b.reorderDepth = c.reorderDepth) (rounds : Nat) :
    MeasuredStep mode store (benchDrain cfg mode rounds b) (drainLoop cfg rounds c) := by
  induction rounds generalizing b c with
  | zero => exact ⟨b, rfl, h, hdepth⟩
  | succ rounds ih =>
      have hlookup : b.buffer.lookup b.next = c.buffer.lookup c.next := by rw [h.buffer, h.next]
      rw [benchDrain, drainLoop, hlookup]
      cases c.buffer.lookup c.next with
      | none => exact ⟨b, rfl, h, hdepth⟩
      | some block =>
          have hbuffer : b.buffer.erase b.next = c.buffer.erase c.next := by rw [h.buffer, h.next]
          have herased : Measured mode store { b with buffer := b.buffer.erase b.next }
              { c with buffer := c.buffer.erase c.next } := { h with buffer := hbuffer }
          refine MeasuredStep.andThen ?_ (herased.nextBlock hrecorder hdepth block)
          intro b' c' hnext hdepth'
          exact ih hnext hdepth'

theorem skippedQueue_receive (height : Nat) (block : FullBlock) :
    (receive (.block height block) c).skippedQueue = c.skippedQueue := rfl

/-- Nothing has been skipped: a block is only buffered and drained. -/
theorem handleItem_block (hskipped : c.skippedQueue = ∅) (height : Nat) (block : FullBlock) :
    handleItem cfg (.block height block) c =
      drainLoop cfg (receive (.block height block) c).buffer.keys.length
        (receive (.block height block) c) := by
  have hcard : (receive (.block height block) c).skippedQueue.card = 0 := by
    rw [skippedQueue_receive, hskipped]
    rfl
  rw [handleItem, hcard, skipLoop]

theorem Measured.received (h : Measured mode store b c) (height : Nat) (block : FullBlock) :
    Measured mode store (receive (.block height block) b) (receive (.block height block) c) :=
  { h with
    buffer := by
      show b.buffer.insert height block = c.buffer.insert height block
      rw [h.buffer] }

end Steps

/-! ## Whole runs -/

/-- The run of the benchmark's consumer beside the bulk parse's. -/
structure MeasuredRun (mode : BenchMode) (store : UtxoStore)
    (bench : Consumer × Except BenchStop Unit) (prod : Consumer × Except ConsumeStop Unit) :
    Prop where
  returns : prod.2 = .ok () → bench.2 = .ok ()
  fails : mode = .full → bench.2 = prod.2.mapError .consume
  measured : prod.2 = .ok () ∨ mode = .full → Measured mode store bench.1 prod.1

section Runs

variable {cfg : ConsumeConfig} {mode : BenchMode} {store : UtxoStore} {b c : Consumer}

/-- A failure of the bulk parse binds the benchmark in full mode only. -/
theorem MeasuredRun.of_error {stop : ConsumeStop} {bench : Consumer × Except BenchStop Unit}
    (h : mode = .full → ∃ b, bench = (b, .error (.consume stop)) ∧ Measured mode store b c) :
    MeasuredRun mode store bench (c, .error stop) where
  returns hok := by cases hok
  fails hfull := by
    obtain ⟨b, rfl, -⟩ := h hfull
    rfl
  measured hshown := by
    have hfull : mode = .full := hshown.resolve_left (fun hok => by cases hok)
    obtain ⟨b, rfl, hmeasured⟩ := h hfull
    exact hmeasured

theorem MeasuredRun.of_ok (h : Measured mode store b c) :
    MeasuredRun mode store (b, .ok ()) (c, .ok ()) :=
  ⟨fun _ => rfl, fun _ => rfl, fun _ => h⟩

/-- The channel closes. -/
theorem Measured.close (h : Measured mode store b c) :
    MeasuredRun mode store (benchLoop cfg mode [] b) (consumeLoop cfg [] c) := by
  have hstep : MeasuredStep mode store (benchFinish cfg mode b) (finishSink cfg c) := h.finish
  unfold benchLoop consumeLoop
  generalize finishSink cfg c = prod at hstep ⊢
  rcases prod with c' | ⟨c', stop | ⟨⟩⟩
  · obtain ⟨b', hb, hmeasured, -⟩ := hstep
    rw [hb]
    exact .of_ok hmeasured
  · refine .of_error fun hfull => ?_
    obtain ⟨b', hb, hmeasured⟩ := hstep hfull
    rw [hb]
    exact ⟨b', rfl, hmeasured⟩
  · obtain ⟨b', hb, hmeasured⟩ := hstep
    have hend : b'.next < cfg.endHeight ↔ c'.next < cfg.endHeight := by rw [hmeasured.next]
    rw [hb]
    dsimp only
    rw [if_congr hend rfl rfl]
    split
    · refine .of_error fun _ => ⟨b', ?_, hmeasured⟩
      rw [hmeasured.next]
    · exact .of_ok hmeasured

/-- The receive loops, over messages that are all blocks. -/
theorem Measured.loop (hrecorder : ∀ height, cfg.faults.recorder height = false)
    (items : List WorkItem) (hitems : ∀ height, .skipped height ∉ items)
    (h : Measured mode store b c) (hdepth : b.reorderDepth = c.reorderDepth) :
    MeasuredRun mode store (benchLoop cfg mode items b) (consumeLoop cfg items c) := by
  induction items generalizing b c with
  | nil => exact h.close
  | cons item items ih =>
      cases item with
      | skipped height => exact absurd List.mem_cons_self (hitems height)
      | block height block =>
          have hrest : ∀ height, .skipped height ∉ items := fun height hin =>
            hitems height (List.mem_cons_of_mem _ hin)
          have hreceived := h.received height block
          have hdepth' : (receive (.block height block) b).reorderDepth =
              (receive (.block height block) c).reorderDepth := congrArg (· + 1) hdepth
          have hrounds : (receive (.block height block) b).buffer.keys.length =
              (receive (.block height block) c).buffer.keys.length := by rw [hreceived.buffer]
          have hdrain := hreceived.drain hrecorder hdepth'
            (receive (.block height block) c).buffer.keys.length
          unfold benchLoop consumeLoop
          dsimp only
          rw [handleItem_block h.skipped, hrounds]
          generalize drainLoop cfg _ (receive (.block height block) c) = prod at hdrain ⊢
          rcases prod with c' | ⟨c', stop | ⟨⟩⟩
          · obtain ⟨b', hb, hmeasured, hdepth''⟩ := hdrain
            rw [hb]
            exact ih hrest hmeasured hdepth''
          · refine .of_error fun hfull => ?_
            obtain ⟨b', hb, hmeasured⟩ := hdrain hfull
            rw [hb]
            exact ⟨b', rfl, hmeasured⟩
          · obtain ⟨b', hb, hmeasured⟩ := hdrain
            rw [hb]
            exact .of_ok hmeasured

theorem measured_initial (start : Nat) (calls calls' : List SinkEvent)
    (hcalls : mode.needsSink = true → List.Forall₂ (SameCall mode) calls calls')
    (hnone : mode.needsSink = false → calls = []) :
    Measured mode store { benchInitial cfg mode start store with sink := calls }
      { initialConsumer cfg start store with sink := calls' } where
  buffer := rfl
  next := rfl
  skipped := rfl
  withUtxo _ := ⟨rfl, rfl, rfl⟩
  withoutUtxo _ := ⟨rfl, rfl⟩
  withSink hsink := ⟨rfl, hcalls hsink⟩
  withoutSink := hnone

/-- The two consumers on one channel of blocks. -/
theorem benchConsume_measures (hrecorder : ∀ height, cfg.faults.recorder height = false)
    (start : Nat) (items : List WorkItem) (hitems : ∀ height, .skipped height ∉ items) :
    MeasuredRun mode store (benchConsume cfg mode start store items)
      (consumeOrdered cfg start store items) := by
  unfold benchConsume consumeOrdered
  cases hcreate : cfg.faults.create (start / cfg.blocksPerPart) with
  | true =>
      rw [if_pos rfl]
      refine .of_error fun hfull => ?_
      rw [if_pos ⟨BenchMode.needsSink_of_full hfull, rfl⟩]
      exact ⟨_, rfl, measured_initial start [] [] (fun _ => .nil) (fun _ => rfl)⟩
  | false =>
      rw [if_neg Bool.false_ne_true, if_neg (fun hboth => Bool.false_ne_true hboth.2)]
      refine Measured.loop hrecorder items hitems (measured_initial start _ _ ?_ ?_) rfl
      · intro hsink
        rw [if_pos hsink]
        exact .cons rfl .nil
      · intro hnone
        rw [hnone]
        rfl

end Runs

/-! ## Trials -/

/-- What a trial leaves, beside a bulk parse over the same store. -/
structure TrialMeasures (mode : BenchMode) (store : UtxoStore) (trial : TrialRun)
    (run : ParseRun) : Prop where
  withUtxo : mode.needsUtxo = true → trial.store = run.store
  withoutUtxo : mode.needsUtxo = false → trial.store = store
  withSink : mode.needsSink = true → List.Forall₂ (SameCall mode) trial.sink run.sink
  withoutSink : mode.needsSink = false → trial.sink = []
  full : mode = .full → trial.sink = run.sink

/-- What a trial returns where the bulk parse returns: a report or, of a cold store, the
refusal of one. -/
def Reported (cfg : BenchConfig) : Except TrialStop Nat → Prop
  | .ok missing =>
      missing = 0 ∨ cfg.mode.needsUtxo = true ∧ cfg.allowMissingUtxos = true
  | .error (.coldStore missing) =>
      0 < missing ∧ cfg.mode.needsUtxo = true ∧ cfg.allowMissingUtxos = false
  | .error _ => False

/-- A trial's verdict beside that of the bulk parse: in full mode it fails as the bulk parse
does, and only then. -/
def SameVerdict (cfg : BenchConfig) (trial : Except TrialStop Nat) : Except ParseStop Unit → Prop
  | .ok () => Reported cfg trial
  | .error stop =>
      cfg.mode = .full → trial = .error (.parse stop) ∨
        ∃ cause, stop = .consume cause ∧ trial = .error (.consume (.consume cause))

section Trials

variable {W : Type} {env : ParseEnv W} {cfg : BenchConfig} {store : UtxoStore}

/-- Without an orphan set no height is skipped. -/
theorem not_skipped_mem_parseStage (index : ChainIndex) (heights : List Nat) (height : Nat) :
    .skipped height ∉ (parseStage env cfg.toParse index heights).1 := by
  intro hin
  obtain ⟨height', -, hitem⟩ := exists_parseHeight_of_mem hin
  obtain ⟨_, bytes, -, -, horphan⟩ := skipped_of_parseHeight hitem
  exact List.not_mem_nil horphan

theorem Measured.trial {mode : BenchMode} {b c : Consumer} (h : Measured mode store b c)
    (result : Except TrialStop Nat) (result' : Except ParseStop Unit) :
    TrialMeasures mode store ⟨result, b.store, b.sink⟩ ⟨result', c.store, c.sink⟩ where
  withUtxo hutxo := (h.withUtxo hutxo).1
  withoutUtxo hnone := (h.withoutUtxo hnone).1
  withSink hsink := (h.withSink hsink).2
  withoutSink := h.withoutSink
  full hfull := by
    have hcalls := (h.withSink (BenchMode.needsSink_of_full hfull)).2
    exact List.forall₂_eq_eq_eq ▸ hcalls.imp fun _ _ hcall => hcall.eq_of_full hfull

/-- A warm store, or one that need not be. -/
theorem Measured.reported {b c : Consumer} (h : Measured cfg.mode store b c)
    (hwarm : ¬(cfg.mode.needsUtxo = true ∧ 0 < b.missingUtxos ∧ cfg.allowMissingUtxos = false)) :
    Reported cfg (.ok b.missingUtxos) := by
  cases hutxo : cfg.mode.needsUtxo with
  | false => exact .inl (h.withoutUtxo hutxo).2
  | true =>
      cases hallow : cfg.allowMissingUtxos with
      | true => exact .inr ⟨hutxo, hallow⟩
      | false =>
          have hzero : ¬0 < b.missingUtxos := fun hpos => hwarm ⟨hutxo, hpos, hallow⟩
          exact .inl (Nat.eq_zero_of_not_pos hzero)

/-- The consumers behind the two parse stages. -/
theorem stages_measured (hrecorder : ∀ height, env.faults.recorder height = false)
    (index : ChainIndex) (start endHeight : Nat) :
    MeasuredRun cfg.mode store
      (benchConsume ⟨endHeight, cfg.blocksPerPart, env.faults, env.orders⟩ cfg.mode start store
        (parseStage env cfg.toParse index
          (env.workerOrder (List.range' start (endHeight - start)))).1)
      (consumeOrdered ⟨endHeight, cfg.blocksPerPart, env.faults, env.orders⟩ start store
        (parseStage env cfg.toParse index
          (env.workerOrder (List.range' start (endHeight - start)))).1) :=
  benchConsume_measures hrecorder start _ (not_skipped_mem_parseStage index _)

theorem trialOver_measures (hrecorder : ∀ height, env.faults.recorder height = false)
    (index : ChainIndex) (start endHeight : Nat) :
    SameVerdict cfg (trialOver env cfg index start endHeight store).result
        (parseOver env cfg.toParse index start endHeight store).result ∧
      ((parseOver env cfg.toParse index start endHeight store).result = .ok () ∨
          cfg.mode = .full →
        TrialMeasures cfg.mode store (trialOver env cfg index start endHeight store)
          (parseOver env cfg.toParse index start endHeight store)) := by
  have hpart : cfg.toParse.blocksPerPart = cfg.blocksPerPart := rfl
  have hrun : MeasuredRun cfg.mode store _ _ :=
    stages_measured hrecorder index start endHeight
  unfold trialOver parseOver
  dsimp only
  rw [hpart]
  generalize benchConsume _ _ _ _ _ = bench at hrun ⊢
  generalize consumeOrdered _ _ _ _ = prod at hrun ⊢
  obtain ⟨b, bresult⟩ := bench
  obtain ⟨c, cresult⟩ := prod
  rcases (parseStage env cfg.toParse index
    (env.workerOrder (List.range' start (endHeight - start)))).2 with stop | ⟨⟩
  · -- The workers' error is looked at first, in both.
    exact ⟨fun _ => .inl rfl, fun hshown =>
      (hrun.measured (hshown.imp_left fun hok => by cases hok)).trial _ _⟩
  · rcases cresult with cause | ⟨⟩
    · have hfails : cfg.mode = .full → bresult = .error (.consume cause) := hrun.fails
      constructor
      · intro hfull
        obtain rfl := hfails hfull
        exact .inr ⟨cause, rfl, rfl⟩
      · intro hshown
        have hfull : cfg.mode = .full := hshown.resolve_left fun hok => by cases hok
        obtain rfl := hfails hfull
        exact (hrun.measured (.inr hfull)).trial _ _
    · obtain rfl : bresult = .ok () := hrun.returns rfl
      have hmeasured : Measured cfg.mode store b c := hrun.measured (.inl rfl)
      dsimp only
      split
      · next hcold => exact ⟨⟨hcold.2.1, hcold.1, hcold.2.2⟩, fun _ => hmeasured.trial _ _⟩
      · next hwarm => exact ⟨hmeasured.reported hwarm, fun _ => hmeasured.trial _ _⟩

variable [AddMonoid W] [LinearOrder W]

/-- A trial of the headers alone leaves the store and calls no sink, whatever the bulk parse
goes on to do. -/
theorem headersTrial_measures (hmode : cfg.mode = .headers) (run : ParseRun) :
    SameVerdict cfg (.ok 0) run.result ∧ TrialMeasures cfg.mode store ⟨.ok 0, store, []⟩ run := by
  have hfull : cfg.mode ≠ .full := by
    rw [hmode]
    decide
  constructor
  · rcases run.result with stop | ⟨⟩
    · exact fun h => absurd h hfull
    · exact .inl rfl
  · rw [hmode]
    exact ⟨nofun, fun _ => rfl, nofun, fun _ => rfl, nofun⟩

/-- A trial beside a bulk parse of the same files into the same store, in which no disk
checkpoint fails: a trial records none.  Where the bulk parse returns, the trial has done the
part of its stages, and reports it unless the store was cold; in full mode it also fails where
the bulk parse fails, with the same store and the same sink. -/
theorem runTrial_measures (hrecorder : ∀ height, env.faults.recorder height = false)
    (files : List BlkFile) :
    SameVerdict cfg (runTrial env cfg files store).result
        (runParse env cfg.toParse files store).result ∧
      ((runParse env cfg.toParse files store).result = .ok () ∨ cfg.mode = .full →
        TrialMeasures cfg.mode store (runTrial env cfg files store)
          (runParse env cfg.toParse files store)) := by
  have hstopped : TrialMeasures cfg.mode store ⟨.ok 0, store, []⟩ ⟨.ok (), store, []⟩ :=
    ⟨fun _ => rfl, fun _ => rfl, fun _ => .nil, fun _ => rfl, fun _ => rfl⟩
  unfold runTrial runParse
  rcases buildChainIndex env.digests env.work env.chainOrders env.fuel files with
    stop | ⟨index, stats⟩
  · exact ⟨fun _ => .inl rfl, fun _ => { hstopped with }⟩
  · dsimp only
    split_ifs with hmode
    · obtain ⟨hverdict, hmeasures⟩ := headersTrial_measures hmode _
      exact ⟨hverdict, fun _ => hmeasures⟩
    · rcases parseRange cfg.toParse index with stop | ⟨start, endHeight⟩
      · exact ⟨fun _ => .inl rfl, fun _ => { hstopped with }⟩
      · exact trialOver_measures hrecorder index start endHeight

end Trials

/-! A trial of the last block alone, into an empty store. -/

def lastBlockBench (mode : BenchMode) : BenchConfig := ⟨mode, 1, some 2, 2, false⟩

/-- A trial of the file of the two blocks. -/
def sampleTrial (cfg : BenchConfig) : TrialRun :=
  runTrial (fileEnv spendDigests spendChain) cfg ((fileOf spendChain).map BlkFile.ofRecords)
    (.openBulk .fresh)

/-- The bulk parse returns, and the trial does its part; the store is cold, and the trial is
refused. -/
theorem runTrial_measures_sample :
    (sampleTrial (lastBlockBench .utxo)).result = .error (.coldStore 1) ∧
      SameVerdict (lastBlockBench .utxo) (sampleTrial (lastBlockBench .utxo)).result
        (spendParse 1 2 .fresh).result ∧
      TrialMeasures .utxo (.openBulk .fresh) (sampleTrial (lastBlockBench .utxo))
        (spendParse 1 2 .fresh) := by
  have hparsed : (spendParse 1 2 .fresh).result = .ok () := by decide +kernel
  have hrecorder : ∀ height, (fileEnv spendDigests spendChain).faults.recorder height = false :=
    fun _ => rfl
  obtain ⟨hverdict, hmeasures⟩ :=
    runTrial_measures hrecorder ((fileOf spendChain).map BlkFile.ofRecords)
  exact ⟨by decide +kernel, hverdict, hmeasures (.inl hparsed)⟩

end Bidx
