import Bidx.Pipeline.Arrival
import Bidx.Store.BlockResult

/-!
# The consumer is a loop over the heights

Whatever the order in which the blocks of a range arrive, the ordered consumer does
what a plain loop over the heights does: apply the block to the store, move to the part
of its height, push its rows.  `Output.upTo` is that loop, and a run of
`consume_ordered` that returns has made exactly its output, with the last part
finished.  No height is skipped here; what skipped heights do to a run is the matter
of `Bidx.Pipeline.Arrival`.
-/

namespace Bidx

open KeyValue

/-! ## Bulk stores -/

/-- A store opened for a bulk parse. -/
structure UtxoStore.Bulk (s : UtxoStore) : Prop where
  recent : s.recent = none
  undoEnabled : s.undoEnabled = false

theorem UtxoStore.bulk_openBulk (db : Db) : (UtxoStore.openBulk db).Bulk := ⟨rfl, rfl⟩

/-- A directory with another table. -/
def Db.withUtxo (db : Db) (S : Table) : Db := { db with utxo := S }

/-- A store with another table. -/
def UtxoStore.withUtxo (s : UtxoStore) (S : Table) : UtxoStore := { s with db := s.db.withUtxo S }

theorem UtxoStore.Bulk.withUtxo {s : UtxoStore} (h : s.Bulk) (S : Table) : (s.withUtxo S).Bulk :=
  ⟨h.recent, h.undoEnabled⟩

/-- A bulk store takes a parsed block: nothing but the table changes. -/
theorem applyFull_bulk (order : IterOrder Key UtxoValue) {s : UtxoStore} (hbulk : s.Bulk)
    (height : UInt32) {block : FullBlock} (hshape : block.WellShaped) :
    s.applyFull order height block = (.ok (spendResult height block s.db.utxo),
      s.withUtxo (tableAfter height block s.db.utxo)) := by
  obtain ⟨s', hs', hutxo, -⟩ := applyFull_result order height hbulk.recent hshape
  obtain ⟨res, st, -, -, -, hres⟩ := applyFull_of_shape order height hbulk.recent hshape
  obtain ⟨-, rfl⟩ := Prod.mk.inj (hres.symm.trans hs')
  rw [hs', ← hutxo]
  have hundo := undo_after s.db order s.undoEnabled height block.outputs st
  rw [hbulk.undoEnabled, if_neg Bool.false_ne_true, ← hbulk.undoEnabled] at hundo
  exact congrArg (fun undo => (Except.ok (spendResult height block s.db.utxo),
    ({ s with db := { s.db with utxo := _, undo } } : UtxoStore))) hundo

/-! ## The loop -/

/-- What a consumer has made so far: its store, its part and its calls to the sink. -/
structure Output where
  store : UtxoStore
  part : Nat
  sink : List SinkEvent

namespace Output

/-- Before the first block. -/
def initial (blocksPerPart start : Nat) (store : UtxoStore) : Output :=
  ⟨store, start / blocksPerPart, [.create (start / blocksPerPart)]⟩

/-- Move to the part of a height. -/
def rotate (blocksPerPart height : Nat) (o : Output) : Output :=
  if height / blocksPerPart = o.part then
    o
  else
    { o with
      part := height / blocksPerPart
      sink := o.sink ++ [.finish o.part] ++ [.create (height / blocksPerPart)] }

/-- Apply a block and push its rows. -/
def push (height : Nat) (block : FullBlock) (o : Output) : Output :=
  let res := spendResult (UInt32.ofNat height) block o.store.db.utxo
  { o with
    store := o.store.withUtxo (tableAfter (UInt32.ofNat height) block o.store.db.utxo)
    sink := o.sink ++ [.push o.part (enrich block res.fees) res.spends] }

/-- `count` heights from `start` on. -/
def upTo (blocksPerPart : Nat) (blocks : Nat → Option FullBlock) (start : Nat) (o : Output) :
    Nat → Output
  | 0 => o
  | count + 1 =>
      match blocks (start + count) with
      | some block =>
          ((upTo blocksPerPart blocks start o count).rotate blocksPerPart (start + count)).push
            (start + count) block
      | none => upTo blocksPerPart blocks start o count

end Output

/-- The output of a consumer. -/
def Consumer.output (c : Consumer) : Output := ⟨c.store, c.partId, c.sink⟩

section Follow

variable {blocksPerPart start count height : Nat} {blocks : Nat → Option FullBlock} {o : Output}
  {block : FullBlock}

theorem Output.upTo_succ (hblock : blocks (start + count) = some block) (o : Output) :
    o.upTo blocksPerPart blocks start (count + 1) =
      ((o.upTo blocksPerPart blocks start count).rotate blocksPerPart (start + count)).push
        (start + count) block := by
  rw [upTo, hblock]

@[simp] theorem Output.store_rotate (o : Output) (blocksPerPart height : Nat) :
    (o.rotate blocksPerPart height).store = o.store := by
  unfold rotate
  split <;> rfl

theorem Output.part_rotate (o : Output) (blocksPerPart height : Nat) :
    (o.rotate blocksPerPart height).part = height / blocksPerPart := by
  unfold rotate
  split
  · rename_i h
    exact h.symm
  · rfl

theorem Output.bulk_upTo (hbulk : o.store.Bulk) (count : Nat) :
    (o.upTo blocksPerPart blocks start count).store.Bulk := by
  induction count with
  | zero => exact hbulk
  | succ count ih =>
      rw [upTo]
      split
      · rw [push, store_rotate]
        exact ih.withUtxo _
      · exact ih

end Follow

/-- A call that failed is a fault. -/
theorem ConsumeFaults.ne_none_of {faults : ConsumeFaults} (f : ConsumeFaults → Bool)
    (hnone : f .none = false) (h : f faults = true) : faults ≠ .none := by
  rintro rfl
  rw [hnone] at h
  contradiction

/-! ## The consumer along the loop -/

section Consumer

variable {cfg : ConsumeConfig} {blocks : Nat → Option FullBlock} {start : Nat} {o : Output}
  {c : Consumer}

/-- A consumer that holds blocks of the range only, has nothing to skip, and has made
the output of the loop up to its next height. -/
structure InOrder (cfg : ConsumeConfig) (blocks : Nat → Option FullBlock) (start : Nat)
    (o : Output) (c : Consumer) : Prop where
  start_le : start ≤ c.next
  next_lt : c.next < cfg.endHeight
  buffer : ∀ height block, c.buffer.lookup height = some block → blocks height = some block
  skipped : c.skippedQueue = ∅
  output : c.output = o.upTo cfg.blocksPerPart blocks start (c.next - start)

/-- The output of a run that returns. -/
structure Finished (cfg : ConsumeConfig) (blocks : Nat → Option FullBlock) (start : Nat)
    (o : Output) (c : Consumer) : Prop where
  store : c.store = (o.upTo cfg.blocksPerPart blocks start (cfg.endHeight - start)).store
  sink : c.sink = (o.upTo cfg.blocksPerPart blocks start (cfg.endHeight - start)).sink ++
    [.finish (o.upTo cfg.blocksPerPart blocks start (cfg.endHeight - start)).part]

/-- What a loop may end with: only a fault makes it fail. -/
def StepInOrder (cfg : ConsumeConfig) (blocks : Nat → Option FullBlock) (start : Nat)
    (o : Output) : Step → Prop
  | .running c => InOrder cfg blocks start o c
  | .returned c (.ok ()) => Finished cfg blocks start o c
  | .returned _ (.error _) => cfg.faults ≠ .none

theorem finishSink_inOrder
    (h : c.output = o.upTo cfg.blocksPerPart blocks start (cfg.endHeight - start)) :
    StepInOrder cfg blocks start o (finishSink cfg c) := by
  unfold finishSink
  split
  · exact ConsumeFaults.ne_none_of (fun f => f.finish c.partId) rfl ‹_›
  · constructor
    · rw [← h]
      rfl
    · rw [← h]
      rfl

theorem advance_inOrder (hstart : start ≤ c.next) (hlt : c.next < cfg.endHeight)
    (hbuffer : ∀ height block, c.buffer.lookup height = some block → blocks height = some block)
    (hskipped : c.skippedQueue = ∅)
    (houtput : c.output = o.upTo cfg.blocksPerPart blocks start (c.next - start + 1)) :
    StepInOrder cfg blocks start o (advance cfg c) := by
  unfold advance
  split
  · exact ConsumeFaults.ne_none_of (fun f => f.recorder c.next) rfl ‹_›
  · split
    · refine finishSink_inOrder ?_
      rw [show cfg.endHeight - start = c.next - start + 1 by omega]
      exact houtput
    · refine ⟨?_, ?_, hbuffer, hskipped, ?_⟩
      · exact Nat.le_succ_of_le hstart
      · show c.next + 1 < cfg.endHeight
        omega
      · show c.output = o.upTo cfg.blocksPerPart blocks start (c.next + 1 - start)
        rw [show c.next + 1 - start = c.next - start + 1 by omega]
        exact houtput

/-- Rotating the part is the loop's rotation, and leaves what is still to come. -/
theorem rotatePart_cases (cfg : ConsumeConfig) (c : Consumer) :
    (∃ c', rotatePart cfg c = .returned c' (.error .sink) ∧ cfg.faults ≠ .none) ∨
      ∃ c', rotatePart cfg c = .running c' ∧
        c'.output = c.output.rotate cfg.blocksPerPart c.next ∧ c'.next = c.next ∧
        c'.buffer = c.buffer ∧ c'.skippedQueue = c.skippedQueue := by
  have hpart : c.output.part = c.partId := rfl
  unfold rotatePart Output.rotate
  rw [hpart]
  split
  · exact .inr ⟨c, rfl, rfl, rfl, rfl, rfl⟩
  · split
    · exact .inl ⟨_, rfl, ConsumeFaults.ne_none_of (fun f => f.finish c.partId) rfl ‹_›⟩
    · dsimp only
      split
      · exact .inl ⟨_, rfl, ConsumeFaults.ne_none_of
          (fun f => f.create (c.next / cfg.blocksPerPart)) rfl ‹_›⟩
      · exact .inr ⟨_, rfl, rfl, rfl, rfl, rfl⟩

theorem applyAndPush_inOrder (hbulk : o.store.Bulk)
    (hshape : ∀ height block, blocks height = some block → block.WellShaped)
    (hstart : start ≤ c.next) (hlt : c.next < cfg.endHeight)
    (hbuffer : ∀ height block, c.buffer.lookup height = some block → blocks height = some block)
    (hskipped : c.skippedQueue = ∅)
    (houtput : c.output =
      (o.upTo cfg.blocksPerPart blocks start (c.next - start)).rotate cfg.blocksPerPart c.next)
    {block : FullBlock} (hblock : blocks c.next = some block) :
    StepInOrder cfg blocks start o (applyAndPush cfg block c) := by
  have hbulk' : c.store.Bulk := by
    have h := congrArg Output.store houtput
    rw [Output.store_rotate] at h
    show c.output.store.Bulk
    rw [h]
    exact Output.bulk_upTo hbulk _
  have hnone := applyFull_bulk (cfg.orders c.next) hbulk' (UInt32.ofNat c.next)
    (hshape _ _ hblock)
  unfold applyAndPush
  split
  · -- Without a fault the call would have succeeded.
    rename_i stop store happly
    intro hfaults
    rw [hfaults] at happly
    exact absurd (happly.symm.trans hnone) (by simp)
  · rename_i res store happly
    obtain ⟨hres, hstore⟩ :=
      Prod.mk.inj ((applyFull_of_applyBlock_ok happly).symm.trans hnone)
    obtain rfl := Except.ok.inj hres
    dsimp only
    split
    · exact ConsumeFaults.ne_none_of (fun f => f.push c.next) rfl ‹_›
    · refine advance_inOrder hstart hlt hbuffer hskipped ?_
      -- One more round of the loop, at the height the consumer stands at.
      have hlast : start + (c.next - start) = c.next := by omega
      rw [Output.upTo_succ (hlast ▸ hblock), hlast, ← houtput, hstore]
      rfl

theorem applyNext_inOrder (hbulk : o.store.Bulk)
    (hshape : ∀ height block, blocks height = some block → block.WellShaped)
    (h : InOrder cfg blocks start o c) {block : FullBlock} (hblock : blocks c.next = some block) :
    StepInOrder cfg blocks start o (applyNext cfg block c) := by
  unfold applyNext
  split
  · exact ConsumeFaults.ne_none_of (fun f => f.tripped c.next) rfl ‹_›
  · rcases rotatePart_cases cfg { c with reorderDepth := c.reorderDepth - 1 } with
      ⟨c', hc', hfaults⟩ | ⟨c', hc', houtput, hnext, hbuffer, hskipped⟩
    · rw [hc']
      exact hfaults
    · rw [hc']
      show StepInOrder cfg blocks start o (applyAndPush cfg block c')
      change c'.next = c.next at hnext
      refine applyAndPush_inOrder hbulk hshape (hnext ▸ h.start_le) (hnext ▸ h.next_lt)
        (hbuffer ▸ h.buffer) (hskipped.trans h.skipped) ?_ (hnext ▸ hblock)
      rw [hnext, ← h.output]
      exact houtput

theorem drainLoop_inOrder (hbulk : o.store.Bulk)
    (hshape : ∀ height block, blocks height = some block → block.WellShaped) (rounds : Nat)
    (h : InOrder cfg blocks start o c) :
    StepInOrder cfg blocks start o (drainLoop cfg rounds c) := by
  induction rounds generalizing c with
  | zero => exact h
  | succ rounds ih =>
      rw [drainLoop]
      split
      · exact h
      · rename_i block hblock
        -- What is left in the buffer are blocks of the range still.
        have herased : InOrder cfg blocks start o { c with buffer := c.buffer.erase c.next } := by
          refine ⟨h.start_le, h.next_lt, fun height b hb => ?_, h.skipped, h.output⟩
          by_cases heq : height = c.next
          · rw [heq, AList.lookup_erase] at hb
            contradiction
          · rw [AList.lookup_erase_ne heq] at hb
            exact h.buffer height b hb
        have hstep := applyNext_inOrder hbulk hshape herased (h.buffer _ _ hblock)
        split
        · rename_i c' hc'
          rw [hc'] at hstep
          exact ih hstep
        · exact hstep

theorem handleItem_inOrder (hbulk : o.store.Bulk)
    (hshape : ∀ height block, blocks height = some block → block.WellShaped)
    (h : InOrder cfg blocks start o c) {height : Nat} {block : FullBlock}
    (hblock : blocks height = some block) :
    StepInOrder cfg blocks start o (handleItem cfg (.block height block) c) := by
  -- A block that arrives twice replaces itself.
  have hreceived : InOrder cfg blocks start o (receive (.block height block) c) := by
    refine ⟨h.start_le, h.next_lt, fun a b hb => ?_, h.skipped, h.output⟩
    change (c.buffer.insert height block).lookup a = some b at hb
    by_cases heq : a = height
    · rw [heq, AList.lookup_insert] at hb
      rw [heq, hblock, hb]
    · rw [AList.lookup_insert_ne heq] at hb
      exact h.buffer a b hb
  -- No rounds of the skip loop: the queue is empty.
  have hnone : (receive (.block height block) c).skippedQueue.card = 0 := by
    rw [hreceived.skipped, Finset.card_empty]
  rw [handleItem, hnone]
  exact drainLoop_inOrder hbulk hshape _ hreceived

/-- How the receive loop may end: with the loop's output, by a fault, or because the
channel closed early. -/
def RunInOrder (cfg : ConsumeConfig) (blocks : Nat → Option FullBlock) (start : Nat)
    (o : Output) : Consumer × Except ConsumeStop Unit → Prop
  | (c, .ok ()) => Finished cfg blocks start o c
  | (_, .error (.channelClosedEarly _ _)) => True
  | (_, .error _) => cfg.faults ≠ .none

theorem RunInOrder.finished {run : Consumer × Except ConsumeStop Unit}
    (h : RunInOrder cfg blocks start o run) (hok : run.2 = .ok ()) :
    Finished cfg blocks start o run.1 := by
  obtain ⟨c, result⟩ := run
  obtain rfl : result = .ok () := hok
  exact h

/-- From the first message to the end of the channel. -/
theorem consumeLoop_inOrder (hbulk : o.store.Bulk)
    (hshape : ∀ height block, blocks height = some block → block.WellShaped)
    {items : List WorkItem}
    (hitems : ∀ item ∈ items, ∃ height block, item = .block height block ∧
      blocks height = some block)
    (h : InOrder cfg blocks start o c) :
    RunInOrder cfg blocks start o (consumeLoop cfg items c) := by
  -- Over the messages; the output of the loop so far is the invariant.
  induction items generalizing c with
  | nil =>
      by_cases hfault : cfg.faults.finish c.partId = true
      · simp only [consumeLoop, finishSink, hfault, if_true]
        exact ConsumeFaults.ne_none_of (fun f => f.finish c.partId) rfl hfault
      · simp only [consumeLoop, finishSink, hfault, Bool.false_eq_true, if_false, h.next_lt,
          if_true]
        trivial
  | cons item items ih =>
      obtain ⟨height, block, rfl, hblock⟩ := hitems _ List.mem_cons_self
      have hstep := handleItem_inOrder hbulk hshape h hblock
      rw [consumeLoop]
      generalize handleItem cfg (.block height block) c = step at hstep
      cases step with
      | running c' => exact ih (fun item hmem => hitems item (List.mem_cons_of_mem _ hmem)) hstep
      | returned c' result =>
          cases result with
          | ok => exact hstep
          | error stop => cases stop <;> first | exact hstep | trivial

/-- A run of the consumer over blocks in any order. -/
theorem consumeOrdered_inOrder {store : UtxoStore} (hbulk : store.Bulk)
    (hshape : ∀ height block, blocks height = some block → block.WellShaped)
    (hlt : start < cfg.endHeight) {items : List WorkItem}
    (hitems : ∀ item ∈ items, ∃ height block, item = .block height block ∧
      blocks height = some block) :
    RunInOrder cfg blocks start (.initial cfg.blocksPerPart start store)
      (consumeOrdered cfg start store items) := by
  unfold consumeOrdered
  split
  · exact ConsumeFaults.ne_none_of (fun f => f.create (start / cfg.blocksPerPart)) rfl ‹_›
  · refine consumeLoop_inOrder hbulk hshape hitems ⟨le_rfl, hlt, fun _ _ hb => ?_, rfl, ?_⟩
    · rw [initialConsumer, AList.lookup_empty] at hb
      contradiction
    · show Output.initial cfg.blocksPerPart start store = Output.upTo _ _ _ _ (start - start)
      rw [Nat.sub_self]
      rfl

/-- Without skipped heights every arrival order has enough messages. -/
theorem enoughMessages_of_blocks {items : List WorkItem} (n : Nat)
    (hitems : ∀ item ∈ items, ∃ height block, item = .block height block ∧
      blocks height = some block) : EnoughMessages items n := by
  intro p item hp
  have hnone : ∀ j, isCrossing items j = false := by
    intro j
    rw [isCrossing, Bool.and_eq_false_iff]
    right
    cases hs : isSkippedAt items j with
    | false => rfl
    | true =>
        obtain ⟨height, block, heq, -⟩ := hitems _ (mem_of_isSkippedAt hs)
        contradiction
  have hzero : crossings items item.height n = crossings items item.height 0 :=
    crossings_eq_of_none (Nat.zero_le _) fun j _ _ _ => hnone j
  rw [hzero]
  exact (List.getElem?_eq_some_iff.mp hp).1

/-- With one block for every height and no fault the consumer returns. -/
theorem consumeOrdered_returns {store : UtxoStore} (hbulk : store.Bulk)
    (hshape : ∀ height block, blocks height = some block → block.WellShaped)
    (hfaults : cfg.faults = .none) {items : List WorkItem}
    (arr : Arrivals start cfg.endHeight items)
    (hitems : ∀ item ∈ items, ∃ height block, item = .block height block ∧
      blocks height = some block) :
    ∃ c, consumeOrdered cfg start store items = (c, .ok ()) ∧
      Finished cfg blocks start (.initial cfg.blocksPerPart start store) c := by
  have hinOrder := consumeOrdered_inOrder hbulk hshape arr.start_lt hitems
  have hrun := consumeOrdered_ok store hfaults arr
  generalize consumeOrdered cfg start store items = run at hinOrder hrun
  match run, hinOrder, hrun with
  | (c, .ok ()), hfinished, _ => exact ⟨c, rfl, hfinished⟩
  | (_, .error (.channelClosedEarly _ _)), _, hnot =>
      exact absurd (enoughMessages_of_blocks _ hitems) hnot
  | (_, .error (.utxo _)), hfault, _ => exact absurd hfaults hfault

end Consumer

end Bidx
