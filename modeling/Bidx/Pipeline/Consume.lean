import Mathlib.Data.Finset.Card
import Bidx.Store.Utxo

/-!
# The ordered consumer

`consume_ordered` receives parsed blocks in arrival order, buffers them until
the next expected height arrives, applies them to the UTXO store in height order
and pushes their rows to the Parquet part of their height.  A `Skipped` item
stands for a height whose block is left out.

One received message is handled in three steps: it is put into the reorder
buffer or the skipped queue, then the consumer advances over the skipped heights
at hand (`skipLoop`), then over the buffered blocks at hand (`drainLoop`).

Heights are natural numbers here: the loops never move past `endHeight`, so the
source's `u32` increments do not overflow.  Sink, recorder, watchdog and RocksDB
failures are told by a `ConsumeFaults` record; the calls made to the sink and to
`apply_block` are logged.
-/

namespace Bidx

open KeyValue

/-- A parse-stage message. -/
inductive WorkItem where
  | block (height : Nat) (block : FullBlock)
  | skipped (height : Nat)

def WorkItem.height : WorkItem → Nat
  | .block height _ => height
  | .skipped height => height

inductive ConsumeStop where
  | utxo (stop : Stop UtxoError)
  | sink
  | recorder
  | watchdog
  | channelClosedEarly (next endHeight : Nat)
deriving DecidableEq

/-- What the sink is asked to do; a push is all rows of one block. -/
inductive SinkEvent where
  | create (part : Nat)
  | push (part : Nat) (block : FullBlock) (spends : List SpendRow)
  | finish (part : Nat)

/-- Which calls fail: sink calls by part or height, the recorder and the watchdog
poll by height, RocksDB by height. -/
structure ConsumeFaults where
  create : Nat → Bool
  push : Nat → Bool
  finish : Nat → Bool
  recorder : Nat → Bool
  tripped : Nat → Bool
  rocks : Nat → RocksFaults

def ConsumeFaults.none : ConsumeFaults :=
  ⟨fun _ => false, fun _ => false, fun _ => false, fun _ => false, fun _ => false,
    fun _ => .none⟩

/-- `blocksPerPart` is at least one: the source divides by it and panics at zero, where the
division here gives part zero. -/
structure ConsumeConfig where
  endHeight : Nat
  blocksPerPart : Nat
  faults : ConsumeFaults
  orders : Nat → IterOrder Key UtxoValue

/-- The variables of the consumer, with the logs. -/
structure Consumer where
  buffer : AList fun _ : Nat => FullBlock
  skippedQueue : Finset Nat
  next : Nat
  partId : Nat
  reorderDepth : Nat
  missingUtxos : Nat
  store : UtxoStore
  applied : List (Nat × Except (Stop UtxoError) SpendResult)
  sink : List SinkEvent

/-- A loop goes on, or the function has returned. -/
inductive Step where
  | running (c : Consumer)
  | returned (c : Consumer) (result : Except ConsumeStop Unit)

/-- `sink.finish()?; return Ok(())`. -/
def finishSink (cfg : ConsumeConfig) (c : Consumer) : Step :=
  if cfg.faults.finish c.partId then
    .returned c (.error .sink)
  else
    .returned { c with sink := c.sink ++ [.finish c.partId] } (.ok ())

/-- The end of a round: the next height, and the return at the last one. -/
def advance (cfg : ConsumeConfig) (c : Consumer) : Step :=
  if cfg.faults.recorder c.next then
    .returned c (.error .recorder)
  else if cfg.endHeight ≤ c.next + 1 then
    finishSink cfg { c with next := c.next + 1 }
  else
    .running { c with next := c.next + 1 }

/-- `while skipped_queue.remove(&next)`; `rounds` is the number of queued heights,
so the loop is over when it is used up. -/
def skipLoop (cfg : ConsumeConfig) : Nat → Consumer → Step
  | 0, c => .running c
  | rounds + 1, c =>
      -- `remove` is the test and the removal in one.
      if c.next ∈ c.skippedQueue then
        match advance cfg { c with skippedQueue := c.skippedQueue.erase c.next } with
        | .running c => skipLoop cfg rounds c
        | returned => returned
      else
        .running c

/-- Which transactions of a block have a coinbase input. -/
def coinbaseTx (block : FullBlock) (i : Nat) : Bool :=
  block.inputs.any fun inp => decide (inp.txIndex.toNat = i) && inp.isCoinbase

/-- Fill in the fees `apply_block` returned, one per transaction, and the total
over the non-coinbase ones. -/
def enrich (block : FullBlock) (fees : List UInt64) : FullBlock :=
  { block with
    txs := block.txs.mapIdx fun i tx => { tx with fee := fees.getD i 0 }
    blockRow := { block.blockRow with
      totalFee := ((List.range block.txs.length).filter fun i => !coinbaseTx block i).foldl
        (fun total i => saturatingAdd total (fees.getD i 0)) 0 } }

/-- Rotate the part file at a boundary. -/
def rotatePart (cfg : ConsumeConfig) (c : Consumer) : Step :=
  if c.next / cfg.blocksPerPart = c.partId then
    .running c
  else if cfg.faults.finish c.partId then
    .returned c (.error .sink)
  else
    let finished := { c with
      partId := c.next / cfg.blocksPerPart
      sink := c.sink ++ [.finish c.partId] }
    -- `part_id` is moved on before the new files are created.
    if cfg.faults.create finished.partId then
      .returned finished (.error .sink)
    else
      .running { finished with sink := finished.sink ++ [.create finished.partId] }

/-- Apply the block at `next` and push its rows. -/
def applyAndPush (cfg : ConsumeConfig) (block : FullBlock) (c : Consumer) : Step :=
  match c.store.applyBlock (cfg.orders c.next) (cfg.faults.rocks c.next)
      (UInt32.ofNat c.next) block.txs block.inputs block.outputs with
  | (.error stop, store) =>
      .returned { c with store, applied := c.applied ++ [(c.next, .error stop)] }
        (.error (.utxo stop))
  | (.ok res, store) =>
      let applied := { c with
        store
        applied := c.applied ++ [(c.next, .ok res)]
        missingUtxos := c.missingUtxos + res.missing }
      -- The store has the block already when the sink refuses its rows.
      if cfg.faults.push c.next then
        .returned applied (.error .sink)
      else
        advance cfg { applied with
          sink := applied.sink ++ [.push c.partId (enrich block res.fees) res.spends] }

/-- One round of the block loop, the block already out of the buffer. -/
def applyNext (cfg : ConsumeConfig) (block : FullBlock) (c : Consumer) : Step :=
  -- The poll comes before `fetch_sub`: on an error the counter keeps this block.
  if cfg.faults.tripped c.next then
    .returned c (.error .watchdog)
  else
    match rotatePart cfg { c with reorderDepth := c.reorderDepth - 1 } with
    | .running c => applyAndPush cfg block c
    | returned => returned

/-- `while let Some(block) = buffer.remove(&next)`; `rounds` is the number of
buffered blocks. -/
def drainLoop (cfg : ConsumeConfig) : Nat → Consumer → Step
  | 0, c => .running c
  | rounds + 1, c =>
      match c.buffer.lookup c.next with
      -- The next height has not arrived: back to the channel.
      | none => .running c
      | some block =>
          match applyNext cfg block { c with buffer := c.buffer.erase c.next } with
          | .running c => drainLoop cfg rounds c
          | returned => returned

/-- Put a message where it belongs. -/
def receive (item : WorkItem) (c : Consumer) : Consumer :=
  match item with
  | .block height block =>
      { c with buffer := c.buffer.insert height block, reorderDepth := c.reorderDepth + 1 }
  | .skipped height => { c with skippedQueue := insert height c.skippedQueue }

/-- Handle one message. -/
def handleItem (cfg : ConsumeConfig) (item : WorkItem) (c : Consumer) : Step :=
  match skipLoop cfg (receive item c).skippedQueue.card (receive item c) with
  | .running c => drainLoop cfg c.buffer.keys.length c
  | returned => returned

/-- The receive loop; the channel closes after the last item. -/
def consumeLoop (cfg : ConsumeConfig) :
    List WorkItem → Consumer → Consumer × Except ConsumeStop Unit
  -- The sink is finished before the missing heights are noticed.
  | [], c =>
      match finishSink cfg c with
      | .returned c (.ok ()) =>
          if c.next < cfg.endHeight then
            (c, .error (.channelClosedEarly c.next cfg.endHeight))
          else
            (c, .ok ())
      | .returned c result => (c, result)
      | .running c => (c, .ok ())
  | item :: items, c =>
      match handleItem cfg item c with
      | .running c => consumeLoop cfg items c
      | .returned c result => (c, result)

/-- The consumer before the first message. -/
def initialConsumer (cfg : ConsumeConfig) (start : Nat) (store : UtxoStore) : Consumer where
  buffer := ∅
  skippedQueue := ∅
  next := start
  partId := start / cfg.blocksPerPart
  reorderDepth := 0
  missingUtxos := 0
  store
  applied := []
  sink := [.create (start / cfg.blocksPerPart)]

/-- `consume_ordered` on a channel that delivers `items` and then closes. -/
def consumeOrdered (cfg : ConsumeConfig) (start : Nat) (store : UtxoStore)
    (items : List WorkItem) : Consumer × Except ConsumeStop Unit :=
  if cfg.faults.create (start / cfg.blocksPerPart) then
    ({ initialConsumer cfg start store with sink := [] }, .error .sink)
  else
    consumeLoop cfg items (initialConsumer cfg start store)

/-! ## The rule of the loops -/

/-- A part of the loop goes on within `P` or returns within `Q`. -/
def Step.Within (P : Consumer → Prop) (Q : Consumer → Except ConsumeStop Unit → Prop) :
    Step → Prop
  | .running c => P c
  | .returned c result => Q c result

/-- What each round keeps: passing a skipped height, applying a buffered block, and the end
of the channel. -/
structure LoopInvariant (cfg : ConsumeConfig) (P : Consumer → Prop)
    (Q : Consumer → Except ConsumeStop Unit → Prop) : Prop where
  skip : ∀ c, P c → c.next ∈ c.skippedQueue →
    (advance cfg { c with skippedQueue := c.skippedQueue.erase c.next }).Within P Q
  block : ∀ c block, P c → c.buffer.lookup c.next = some block →
    (applyNext cfg block { c with buffer := c.buffer.erase c.next }).Within P Q
  close : ∀ c, P c → Q (consumeLoop cfg [] c).1 (consumeLoop cfg [] c).2

namespace LoopInvariant

variable {cfg : ConsumeConfig} {P : Consumer → Prop}
  {Q : Consumer → Except ConsumeStop Unit → Prop} {c : Consumer}

theorem skipLoop (inv : LoopInvariant cfg P Q) (rounds : Nat) (h : P c) :
    (skipLoop cfg rounds c).Within P Q := by
  induction rounds generalizing c with
  | zero => exact h
  | succ rounds ih =>
      rw [Bidx.skipLoop]
      split
      · rename_i hmem
        have hstep := inv.skip c h hmem
        split
        · rename_i c' hc'
          rw [hc'] at hstep
          exact ih hstep
        · exact hstep
      · exact h

theorem drainLoop (inv : LoopInvariant cfg P Q) (rounds : Nat) (h : P c) :
    (drainLoop cfg rounds c).Within P Q := by
  induction rounds generalizing c with
  | zero => exact h
  | succ rounds ih =>
      rw [Bidx.drainLoop]
      split
      · exact h
      · rename_i block hlookup
        have hstep := inv.block c block h hlookup
        split
        · rename_i c' hc'
          rw [hc'] at hstep
          exact ih hstep
        · exact hstep

theorem handleItem (inv : LoopInvariant cfg P Q) {item : WorkItem} (h : P (receive item c)) :
    (handleItem cfg item c).Within P Q := by
  have hskip := inv.skipLoop (receive item c).skippedQueue.card h
  unfold Bidx.handleItem
  split
  · rename_i c' hc'
    rw [hc'] at hskip
    exact inv.drainLoop _ hskip
  · exact hskip

/-- The receive loop ends within `Q`: by induction on the messages. -/
theorem consumeLoop (inv : LoopInvariant cfg P Q) {items : List WorkItem}
    (hreceive : ∀ item ∈ items, ∀ c, P c → P (receive item c)) (h : P c) :
    Q (consumeLoop cfg items c).1 (consumeLoop cfg items c).2 := by
  induction items generalizing c with
  | nil => exact inv.close c h
  | cons item items ih =>
      have hstep := inv.handleItem (hreceive item List.mem_cons_self c h)
      rw [Bidx.consumeLoop]
      generalize Bidx.handleItem cfg item c = step at hstep ⊢
      cases step with
      | running c' =>
          exact ih (fun item hmem => hreceive item (List.mem_cons_of_mem _ hmem)) hstep
      | returned c' result => exact hstep

end LoopInvariant

end Bidx
