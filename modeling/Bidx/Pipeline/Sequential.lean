import Bidx.Pipeline.BulkReplay
import Bidx.Pipeline.ReorderBound

/-!
# The pipeline runs the sequential consumer

The step relation of workers, channel and consumer takes `consume_ordered` apart at its
shared accesses.  Put together again, in every interleaving, it is `consumeOrdered` on
the messages in the order in which they were received, and these messages are what the
workers made of their heights: a run that is over did what `parseOver` does for one
order of the heights.

What the consumer would do with the messages to come if it ran alone (`alone`) does not
change in its steps, but for the receiving of a message, which takes that message.
-/

namespace Bidx

open KeyValue

/-! ## The consumer alone -/

section Alone

variable (cfg : ConsumeConfig)

/-- Behind a message: the receive loop goes on, or the function has returned. -/
def thenReceive (items : List WorkItem) : Step → Consumer × Except ConsumeStop Unit
  | .running c => consumeLoop cfg items c
  | .returned c result => (c, result)

/-- Behind the skip loop: the buffered blocks at hand come next. -/
def thenDrain (items : List WorkItem) : Step → Consumer × Except ConsumeStop Unit
  | .running c => thenReceive cfg items (drainLoop cfg c.buffer.keys.length c)
  | .returned c result => (c, result)

/-- What the consumer still does when it runs alone with the messages to come. -/
def alone (phase : ConsumerPhase) (c : Consumer) (items : List WorkItem) :
    Consumer × Except ConsumeStop Unit :=
  match phase with
  | .starting =>
      if cfg.faults.create c.partId then
        (c, .error .sink)
      else
        consumeLoop cfg items { c with sink := c.sink ++ [.create c.partId] }
  | .receiving => consumeLoop cfg items c
  | .received item => consumeLoop cfg (item :: items) c
  | .skipping => thenDrain cfg items (skipLoop cfg c.skippedQueue.card c)
  | .draining => thenDrain cfg items (.running c)
  | .applying block =>
      match rotatePart cfg c with
      | .running c => thenDrain cfg items (applyAndPush cfg block c)
      | .returned c result => (c, result)
  | .returned result => (c, result)

theorem consumeLoop_cons (item : WorkItem) (items : List WorkItem) (c : Consumer) :
    consumeLoop cfg (item :: items) c =
      thenDrain cfg items
        (skipLoop cfg (receive item c).skippedQueue.card (receive item c)) := by
  rw [consumeLoop, handleItem]
  cases skipLoop cfg (receive item c).skippedQueue.card (receive item c) with
  | running c' =>
      dsimp only [thenDrain]
      cases drainLoop cfg c'.buffer.keys.length c' <;> rfl
  | returned c' result => rfl

/-- Passing a skipped height is one round of the skip loop. -/
theorem skipLoop_of_mem {c : Consumer} (hmem : c.next ∈ c.skippedQueue) :
    skipLoop cfg c.skippedQueue.card c =
      match advance cfg { c with skippedQueue := c.skippedQueue.erase c.next } with
      | .running c' => skipLoop cfg c'.skippedQueue.card c'
      | returned => returned := by
  have hqueue := (advance_sameBuffer cfg
    { c with skippedQueue := c.skippedQueue.erase c.next }).skippedQueue
  have hcard : c.skippedQueue.card = (c.skippedQueue.erase c.next).card + 1 := by
    rw [Finset.card_erase_of_mem hmem]
    have := Finset.card_pos.mpr ⟨_, hmem⟩
    omega
  rw [hcard, skipLoop, if_pos hmem]
  cases hadvance : advance cfg { c with skippedQueue := c.skippedQueue.erase c.next } with
  | running c' =>
      rw [hadvance] at hqueue
      have hc' : c'.skippedQueue = c.skippedQueue.erase c.next := hqueue
      simp only [hc']
  | returned c' result => rfl

theorem skipLoop_of_notMem {c : Consumer} (hmem : c.next ∉ c.skippedQueue) (rounds : Nat) :
    skipLoop cfg rounds c = .running c := by
  cases rounds with
  | zero => rfl
  | succ rounds => rw [skipLoop, if_neg hmem]

theorem drainLoop_of_none {c : Consumer} (hlookup : c.buffer.lookup c.next = none)
    (rounds : Nat) : drainLoop cfg rounds c = .running c := by
  cases rounds with
  | zero => rfl
  | succ rounds => rw [drainLoop, hlookup]

/-- Taking a block out of the buffer and applying it is one round of the block loop. -/
theorem thenDrain_of_some (htripped : ∀ height, cfg.faults.tripped height = false)
    {c : Consumer} {block : FullBlock} (hlookup : c.buffer.lookup c.next = some block)
    (items : List WorkItem) :
    thenDrain cfg items (.running c) = alone cfg (.applying block)
      { c with buffer := c.buffer.erase c.next, reorderDepth := c.reorderDepth - 1 } items := by
  have hlength : c.buffer.keys.length = (c.buffer.erase c.next).keys.length + 1 := by
    have hmem : c.next ∈ c.buffer.keys := mem_keys_of_lookup hlookup
    rw [AList.keys_erase, List.length_erase_of_mem hmem]
    have := List.length_pos_of_mem hmem
    omega
  have hrotate := (rotatePart_sameBuffer cfg
    { c with buffer := c.buffer.erase c.next, reorderDepth := c.reorderDepth - 1 }).1.buffer
  simp only [thenDrain, alone, hlength, drainLoop, hlookup, applyNext, htripped,
    Bool.false_eq_true, if_false]
  cases hrotated : rotatePart cfg
      { c with buffer := c.buffer.erase c.next, reorderDepth := c.reorderDepth - 1 } with
  | returned c' result => rfl
  | running c' =>
      rw [hrotated] at hrotate
      have hc' : c'.buffer = c.buffer.erase c.next := hrotate
      have happly := (applyAndPush_sameBuffer cfg block c').buffer
      dsimp only
      cases happlied : applyAndPush cfg block c' with
      | returned c'' result => rfl
      | running c'' =>
          rw [happlied] at happly
          have hc'' : c''.buffer = c.buffer.erase c.next := happly.trans hc'
          simp only [hc'']

end Alone

/-! ## What a consumer that returns has received -/

/-- What the consumer holds or has passed has arrived. -/
structure Received (start : Nat) (heights : List Nat) (c : Consumer) : Prop where
  buffer : ∀ height block, c.buffer.lookup height = some block → height ∈ heights
  skipped : ∀ height ∈ c.skippedQueue, height ∈ heights
  passed : ∀ height, start ≤ height → height < c.next → height ∈ heights

/-- Without an error the whole range has arrived. -/
def ReturnsReceived (start endHeight : Nat) (heights : List Nat) (_ : Consumer)
    (result : Except ConsumeStop Unit) : Prop :=
  result = .ok () → ∀ height, start ≤ height → height < endHeight → height ∈ heights

section Received

variable {cfg : ConsumeConfig} {start : Nat} {heights : List Nat} {c : Consumer}

theorem returnsReceived_error {endHeight : Nat} (c : Consumer) (stop : ConsumeStop) :
    ReturnsReceived start endHeight heights c (.error stop) := by
  intro hok
  contradiction

theorem advance_received (hnext : c.next ∈ heights) (h : Received start heights c) :
    (advance cfg c).Within (Received start heights)
      (ReturnsReceived start cfg.endHeight heights) := by
  have hpassed : ∀ height, start ≤ height → height < c.next + 1 → height ∈ heights := by
    intro height hle hlt
    by_cases heq : height = c.next
    · rw [heq]
      exact hnext
    · exact h.passed height hle (by omega)
  unfold advance
  split
  · exact returnsReceived_error c _
  · split
    · rename_i hend
      unfold finishSink
      split
      · exact returnsReceived_error c _
      · exact fun _ height hle hlt => hpassed height hle (by omega)
    · exact ⟨h.buffer, h.skipped, hpassed⟩

theorem applyNext_received (hnext : c.next ∈ heights) (h : Received start heights c)
    (block : FullBlock) :
    (applyNext cfg block c).Within (Received start heights)
      (ReturnsReceived start cfg.endHeight heights) := by
  unfold applyNext
  split
  · exact returnsReceived_error c _
  · rcases rotatePart_cases cfg { c with reorderDepth := c.reorderDepth - 1 } with
      ⟨c', hc', -⟩ | ⟨c', hc', -, hheight, hbuffer, hskipped⟩
    · rw [hc']
      exact returnsReceived_error c _
    · rw [hc']
      change c'.next = c.next at hheight
      dsimp only
      unfold applyAndPush
      split
      · exact returnsReceived_error c _
      · dsimp only
        split
        · exact returnsReceived_error c _
        · refine advance_received ?_ ⟨?_, ?_, ?_⟩
          · show c'.next ∈ heights
            rw [hheight]
            exact hnext
          · show ∀ height block, c'.buffer.lookup height = some block → height ∈ heights
            rw [hbuffer]
            exact h.buffer
          · show ∀ height ∈ c'.skippedQueue, height ∈ heights
            rw [hskipped]
            exact h.skipped
          · show ∀ height, start ≤ height → height < c'.next → height ∈ heights
            rw [hheight]
            exact h.passed

/-- The consumer passes only heights that arrived. -/
theorem received_invariant (cfg : ConsumeConfig) (start : Nat) (heights : List Nat) :
    LoopInvariant cfg (Received start heights)
      (ReturnsReceived start cfg.endHeight heights) where
  skip c h hmem := by
    refine advance_received (h.skipped _ hmem) ⟨h.buffer, fun height herased => ?_, h.passed⟩
    exact h.skipped height (Finset.mem_of_mem_erase herased)
  block c block h hlookup := by
    have herased : Received start heights { c with buffer := c.buffer.erase c.next } := by
      refine ⟨fun height b hb => ?_, h.skipped, h.passed⟩
      by_cases heq : height = c.next
      · rw [heq]
        exact h.buffer _ _ hlookup
      · exact h.buffer height b ((AList.lookup_erase_ne heq).symm.trans hb)
    refine applyNext_received ?_ herased block
    exact h.buffer _ _ hlookup
  close c h := by
    intro hok height hle hlt
    by_cases hfinish : cfg.faults.finish c.partId = true
    · simp only [consumeLoop, finishSink, hfinish, if_true] at hok
      contradiction
    · simp only [consumeLoop, finishSink, hfinish, Bool.false_eq_true, if_false] at hok
      split at hok
      · contradiction
      · exact h.passed height hle (by omega)

/-- A run of the consumer that returns has received its whole range. -/
theorem consumeOrdered_received (start : Nat) (store : UtxoStore) (items : List WorkItem)
    (hok : (consumeOrdered cfg start store items).2 = .ok ()) {height : Nat}
    (hle : start ≤ height) (hlt : height < cfg.endHeight) :
    height ∈ items.map WorkItem.height := by
  unfold consumeOrdered at hok
  split at hok
  · contradiction
  · have hinitial : Received start (items.map WorkItem.height)
        (initialConsumer cfg start store) := by
      refine ⟨fun height block hlookup => ?_, fun height hmem => ?_, fun height hle hlt => ?_⟩
      · rw [initialConsumer, AList.lookup_empty] at hlookup
        contradiction
      · exact absurd hmem (Finset.notMem_empty height)
      · exact absurd hlt (Nat.not_lt.mpr hle)
    refine (received_invariant cfg start _).consumeLoop (fun item hmem c h => ?_) hinitial hok
      height hle hlt
    have hhere : item.height ∈ items.map WorkItem.height := List.mem_map_of_mem hmem
    cases item with
    | block height' block =>
        refine ⟨fun height b hb => ?_, h.skipped, h.passed⟩
        by_cases heq : height = height'
        · rw [heq]
          exact hhere
        · exact h.buffer height b ((AList.lookup_insert_ne heq).symm.trans hb)
    | skipped height' =>
        refine ⟨h.buffer, fun height hmem => ?_, h.passed⟩
        rcases Finset.mem_insert.mp hmem with rfl | hold
        · exact hhere
        · exact h.skipped height hold

end Received

/-! ## The steps of the consumer -/

namespace Pipeline

/-- What the consumer of a state would do alone. -/
def aloneFrom (cfg : PipelineConfig) (s : Pipeline) (items : List WorkItem) :
    Consumer × Except ConsumeStop Unit :=
  alone cfg.consume s.phase s.consumer items

section Steps

variable {cfg : PipelineConfig} {s s' : Pipeline}

theorem aloneFrom_resume_skipping (s : Pipeline) (step : Step) (items : List WorkItem) :
    aloneFrom cfg (s.resume .skipping step) items =
      thenDrain cfg.consume items
        (match step with
        | .running c => skipLoop cfg.consume c.skippedQueue.card c
        | returned => returned) := by
  cases step <;> rfl

theorem aloneFrom_resume_draining (s : Pipeline) (step : Step) (items : List WorkItem) :
    aloneFrom cfg (s.resume .draining step) items = thenDrain cfg.consume items step := by
  cases step <;> rfl

/-- How the consumer's steps change what it would do alone. -/
inductive Continues (cfg : PipelineConfig) (s s' : Pipeline) : Prop
  | same (hchannel : s'.channel = s.channel)
      (h : ∀ items, aloneFrom cfg s' items = aloneFrom cfg s items)
  | takes {item : WorkItem} (hchannel : s.channel = item :: s'.channel)
      (h : ∀ items, aloneFrom cfg s' items = aloneFrom cfg s (item :: items))
  | closes {result : Except ConsumeStop Unit} (hopen : s.receiverDropped = false)
      (hchannel : s.channel = []) (hchannel' : s'.channel = [])
      (hreturned : s.workers.all Worker.isReturned = true) (hphase : s'.phase = .returned result)
      (h : (s'.consumer, result) = aloneFrom cfg s [])

theorem closeChannel_continues (cfg : PipelineConfig) (hphase : s.phase = .receiving) :
    ∃ result, (s.closeChannel cfg).phase = .returned result ∧
      (s.closeChannel cfg).channel = s.channel ∧
      ((s.closeChannel cfg).consumer, result) = aloneFrom cfg s [] := by
  obtain ⟨c, result, hfinish, -⟩ := finishSink_returned cfg.consume s.consumer
  simp only [aloneFrom, alone, hphase, consumeLoop, closeChannel, hfinish]
  cases result with
  | error stop => exact ⟨_, rfl, rfl, rfl⟩
  | ok =>
      dsimp only
      split
      · exact ⟨_, rfl, rfl, rfl⟩
      · exact ⟨_, rfl, rfl, rfl⟩

theorem consumerStep_continues
    (htripped : ∀ height, cfg.consume.faults.tripped height = false) (hs : s.tripped = false)
    (hstep : s.consumerStep cfg = some s') : Continues cfg s s' := by
  cases consumerStep_move hstep with
  | createFails hphase hcreate =>
      refine .same rfl fun items => ?_
      simp only [aloneFrom, alone, hphase, hcreate, if_true]
  | creates hphase hcreate =>
      refine .same rfl fun items => ?_
      simp only [aloneFrom, alone, hphase, hcreate, Bool.false_eq_true, if_false]
  | receives hphase hchannel =>
      refine .takes hchannel fun items => ?_
      simp only [aloneFrom, alone, hphase]
  | closes hphase hchannel hreturned =>
      obtain ⟨result, hresult, hkept, halone⟩ := closeChannel_continues cfg hphase
      have hopen : s.receiverDropped = false := by rw [receiverDropped, hphase]
      exact .closes hopen hchannel (hkept.trans hchannel) hreturned hresult halone
  | stores hphase =>
      refine .same rfl fun items => ?_
      simp only [aloneFrom, alone, hphase, consumeLoop_cons]
  | skips hphase hmem =>
      have hround := skipLoop_of_mem cfg.consume hmem
      refine .same ?_ fun items => ?_
      · cases advance cfg.consume
          { s.consumer with skippedQueue := s.consumer.skippedQueue.erase s.consumer.next } <;> rfl
      · rw [aloneFrom_resume_skipping, aloneFrom, hphase, alone, hround]
  | drains hphase hmem =>
      refine .same rfl fun items => ?_
      simp only [aloneFrom, alone, hphase, skipLoop_of_notMem cfg.consume hmem]
  | waits hphase hlookup =>
      refine .same rfl fun items => ?_
      simp only [aloneFrom, alone, hphase, thenDrain, drainLoop_of_none cfg.consume hlookup,
        thenReceive]
  | stopsOnTrip hphase hlookup hnow =>
      rw [hs] at hnow
      contradiction
  | takes hphase hlookup =>
      refine .same rfl fun items => ?_
      rw [aloneFrom, aloneFrom, hphase, alone, thenDrain_of_some cfg.consume htripped hlookup]
  | applies hphase hrotate =>
      refine .same ?_ fun items => ?_
      · rename_i block c
        cases applyAndPush cfg.consume block c <;> rfl
      · rw [aloneFrom_resume_draining, aloneFrom, hphase, alone, hrotate]
  | rotateFails hphase hrotate =>
      refine .same rfl fun items => ?_
      simp only [aloneFrom, alone, hphase, hrotate]

end Steps

/-! ## The heights and their messages -/

/-- The messages are what the workers made of the heights sent; the other heights are
with a worker, or lost with one that has stopped early. -/
structure Accounted (cfg : PipelineConfig) (heights : List Nat) (received : List WorkItem)
    (sent lost : List Nat) (s : Pipeline) : Prop where
  made : List.Forall₂ (fun height item => cfg.parse height = some item) sent
    (received ++ s.channel)
  accounts : (sent ++ (s.workers.flatMap Worker.remaining ++ lost)).Perm heights
  sending : ∀ item rest, .sending item rest ∈ s.workers → cfg.parse item.height = some item
  untripped : s.tripped = false
  keeps : s.workers.any Worker.failed = false → lost = []
  failed : s.workers.any Worker.failed = true →
    s.receiverDropped = true ∧ lost ≠ [] ∨ ∃ height ∈ lost, cfg.parse height = none

section Workers

variable {cfg : PipelineConfig} {heights sent lost extra : List Nat} {received : List WorkItem}
  {s s' : Pipeline} {i : Nat} {w w' : Worker} {channel : List WorkItem}

/-- A worker that has not failed decides by what it becomes. -/
theorem any_failed_set {ws : List Worker} (hw : ws[i]? = some w) (hactive : w.failed = false) :
    (ws.set i w').any Worker.failed = (w'.failed || ws.any Worker.failed) := by
  induction ws generalizing i with
  | nil => contradiction
  | cons v ws ih =>
      cases i with
      | zero =>
          obtain rfl : v = w := Option.some.inj hw
          rw [List.set_cons_zero, List.any_cons, List.any_cons, hactive, Bool.false_or]
      | succ i =>
          rw [List.set_cons_succ, List.any_cons, List.any_cons, ih hw, Bool.or_left_comm]

/-- A worker's move that sends nothing: what it has no more is lost. -/
theorem Accounted.setWorker (extra : List Nat) (h : Accounted cfg heights received sent lost s)
    (hw : s.workers[i]? = some w) (hactive : w.failed = false)
    (hremaining : (w'.remaining ++ extra).Perm w.remaining)
    (hsending : ∀ item rest, w' = .sending item rest → cfg.parse item.height = some item)
    (hextra : w'.failed = false → extra = [])
    (hfailed : w'.failed = true →
      s.receiverDropped = true ∧ extra ≠ [] ∨ ∃ height ∈ extra, cfg.parse height = none) :
    Accounted cfg heights received sent (extra ++ lost)
      { s with workers := s.workers.set i w' } where
  made := h.made
  accounts := by
    obtain ⟨rest, hold, hnew⟩ := flatMap_set_perm Worker.remaining hw
    refine .trans (.append_left sent ?_) h.accounts
    -- What the worker keeps and what is lost of it are what it had.
    calc ((s.workers.set i w').flatMap Worker.remaining ++ (extra ++ lost)).Perm
          (w'.remaining ++ rest ++ (extra ++ lost)) := (hnew w').append_right _
      _ |>.Perm (w'.remaining ++ extra ++ (rest ++ lost)) := by
          simp only [List.append_assoc]
          exact .append_left _ (List.perm_append_comm_assoc _ _ _)
      _ |>.Perm (w.remaining ++ (rest ++ lost)) := hremaining.append_right _
      _ |>.Perm (s.workers.flatMap Worker.remaining ++ lost) := by
          rw [← List.append_assoc]
          exact hold.symm.append_right _
  sending item rest hmem := by
    rcases List.mem_or_eq_of_mem_set hmem with hold | heq
    · exact h.sending item rest hold
    · exact hsending item rest heq.symm
  untripped := h.untripped
  keeps hnone := by
    rw [any_failed_set hw hactive, Bool.or_eq_false_iff] at hnone
    rw [hextra hnone.1, h.keeps hnone.2, List.append_nil]
  failed hsome := by
    rw [any_failed_set hw hactive, Bool.or_eq_true] at hsome
    rcases hsome with hnew | hold
    · exact (hfailed hnew).imp (And.imp_right fun hne => List.append_ne_nil_of_left_ne_nil hne _)
        (Exists.imp fun _ hg => ⟨List.mem_append_left _ hg.1, hg.2⟩)
    · exact (h.failed hold).imp (And.imp_right fun hne => List.append_ne_nil_of_right_ne_nil _ hne)
        (Exists.imp fun _ hg => ⟨List.mem_append_right _ hg.1, hg.2⟩)

/-- A worker that stays at its height loses nothing. -/
theorem Accounted.keepHeight (h : Accounted cfg heights received sent lost s)
    (hw : s.workers[i]? = some w) (hactive : w.failed = false) (hactive' : w'.failed = false)
    (hremaining : w'.remaining = w.remaining)
    (hsending : ∀ item rest, w' = .sending item rest → cfg.parse item.height = some item) :
    Accounted cfg heights received sent lost { s with workers := s.workers.set i w' } := by
  refine h.setWorker [] hw hactive ?_ hsending (fun _ => rfl) fun hfail => ?_
  · rw [List.append_nil, hremaining]
  · rw [hactive'] at hfail
    contradiction

/-- A worker that fails at its height loses all it has. -/
theorem Accounted.fail (h : Accounted cfg heights received sent lost s)
    (hw : s.workers[i]? = some w) (hactive : w.failed = false)
    (hcause : s.receiverDropped = true ∧ w.remaining ≠ [] ∨
      ∃ height ∈ w.remaining, cfg.parse height = none) :
    Accounted cfg heights received sent (w.remaining ++ lost)
      { s with workers := s.workers.set i (.returned false) } := by
  refine h.setWorker _ hw hactive (.refl _) ?_ ?_ fun _ => hcause
  · intro item rest heq
    cases heq
  · intro hfalse
    cases hfalse

/-- A send: the height is sent, and where a worker has failed the rest is lost. -/
theorem Accounted.send (h : Accounted cfg heights received sent lost s) {item : WorkItem}
    {rest : List Nat} (hw : s.workers[i]? = some (.sending item rest)) :
    ∃ lost', Accounted cfg heights received (sent ++ [item.height]) lost' { s with
      workers := s.workers.set i (s.afterSend rest), channel := s.channel ++ [item] } := by
  have hitem := h.sending item rest (List.mem_of_getElem? hw)
  obtain ⟨extra, hremaining, hactive, hextra⟩ : ∃ extra,
      ((s.afterSend rest).remaining ++ extra).Perm rest ∧ (s.afterSend rest).failed = false ∧
        (s.workers.any Worker.failed = false → extra = []) := by
    rw [afterSend]
    split
    · rename_i hfailed
      exact ⟨rest, .refl _, rfl, fun hnone => by rw [hnone] at hfailed; contradiction⟩
    · refine ⟨[], ?_, ?_, fun _ => rfl⟩
      · rw [List.append_nil, remaining_next]
      · cases rest <;> rfl
  have hany : (s.workers.set i (s.afterSend rest)).any Worker.failed =
      s.workers.any Worker.failed := by
    rw [any_failed_set hw rfl, hactive, Bool.false_or]
  refine ⟨extra ++ lost, ?_, ?_, ?_, h.untripped, ?_, ?_⟩
  · show List.Forall₂ _ _ (received ++ (s.channel ++ [item]))
    rw [← List.append_assoc]
    exact List.rel_append h.made (.cons hitem .nil)
  · obtain ⟨others, hold, hnew⟩ := flatMap_set_perm Worker.remaining hw
    refine .trans ?_ h.accounts
    rw [List.append_assoc]
    refine .append_left sent ?_
    -- The height sent goes in front of what is left.
    calc ([item.height] ++ ((s.workers.set i (s.afterSend rest)).flatMap Worker.remaining ++
          (extra ++ lost))).Perm
          ([item.height] ++ ((s.afterSend rest).remaining ++ others ++ (extra ++ lost))) :=
            .append_left _ ((hnew _).append_right _)
      _ |>.Perm ([item.height] ++ ((s.afterSend rest).remaining ++ extra ++ (others ++ lost))) := by
          simp only [List.append_assoc]
          exact .append_left _ (.append_left _ (List.perm_append_comm_assoc _ _ _))
      _ |>.Perm ([item.height] ++ (rest ++ (others ++ lost))) :=
          .append_left _ (hremaining.append_right _)
      _ |>.Perm (s.workers.flatMap Worker.remaining ++ lost) := by
          rw [← List.append_assoc, ← List.append_assoc]
          exact hold.symm.append_right _
  · intro item' rest' hmem
    rcases List.mem_or_eq_of_mem_set hmem with hold | heq
    · exact h.sending item' rest' hold
    · rw [afterSend] at heq
      split at heq
      · cases heq
      · cases rest <;> cases heq
  · intro hnone
    rw [hany] at hnone
    rw [hextra hnone, h.keeps hnone, List.append_nil]
  · intro hsome
    rw [hany] at hsome
    exact (h.failed hsome).imp
      (And.imp_right fun hne => List.append_ne_nil_of_right_ne_nil _ hne)
      (Exists.imp fun _ hg => ⟨List.mem_append_right _ hg.1, hg.2⟩)

theorem Accounted.workerStep (h : Accounted cfg heights received sent lost s)
    (hheight : ∀ height ∈ heights, ∀ item, cfg.parse height = some item → item.height = height)
    (hw : s.workers[i]? = some w) (hstep : s.workerStep cfg w = some (w', channel)) :
    ∃ sent' lost', Accounted cfg heights received sent' lost'
      { s with workers := s.workers.set i w', channel } := by
  have hmem : ∀ height ∈ w.remaining, height ∈ heights := fun height hheld =>
    h.accounts.mem_iff.mp (List.mem_append_right _ (List.mem_append_left _
      (List.mem_flatMap.mpr ⟨w, List.mem_of_getElem? hw, hheld⟩)))
  cases workerStep_move hstep with
  | waits => exact ⟨sent, lost, h.keepHeight hw rfl rfl rfl fun _ _ heq => by cases heq⟩
  | passes => exact ⟨sent, lost, h.keepHeight hw rfl rfl rfl fun _ _ heq => by cases heq⟩
  | isNext => exact ⟨sent, lost, h.keepHeight hw rfl rfl rfl fun _ _ heq => by cases heq⟩
  | retests => exact ⟨sent, lost, h.keepHeight hw rfl rfl rfl fun _ _ heq => by cases heq⟩
  | stopsOnTrip htripped =>
      rw [h.untripped] at htripped
      contradiction
  | @parses height rest item hitem =>
      have hsame := hheight height (hmem height List.mem_cons_self) item hitem
      refine ⟨sent, lost, h.keepHeight hw rfl rfl ?_ fun item' rest' heq => ?_⟩
      · show item.height :: rest = height :: rest
        rw [hsame]
      · cases heq
        rw [hsame]
        exact hitem
  | parseFails hnone => exact ⟨sent, _, h.fail hw rfl (.inr ⟨_, List.mem_cons_self, hnone⟩)⟩
  | sendFails hdropped => exact ⟨sent, _, h.fail hw rfl (.inl ⟨hdropped, by simp [Worker.remaining]⟩)⟩
  | sends => exact ⟨_, h.send hw⟩

/-- When every height of the range has been received, no worker has failed. -/
theorem Accounted.none_failed {start count : Nat}
    (h : Accounted cfg (List.range' start count) received sent lost s)
    (hremaining : s.workers.flatMap Worker.remaining = [])
    (hheight : ∀ height item, cfg.parse height = some item → item.height = height)
    (hall : ∀ height, start ≤ height → height < start + count →
      height ∈ received.map WorkItem.height) : s.workers.any Worker.failed = false := by
  have hmade : ∀ {heights : List Nat} {items : List WorkItem},
      List.Forall₂ (fun height item => cfg.parse height = some item) heights items →
        items.map WorkItem.height = heights := by
    intro heights items hall
    induction hall with
    | nil => rfl
    | cons hitem _ ih => rw [List.map_cons, ih, hheight _ _ hitem]
  have hsent : ∀ height ∈ received.map WorkItem.height, height ∈ sent := by
    intro height hmem
    rw [← hmade h.made, List.map_append]
    exact List.mem_append_left _ hmem
  have haccounts := h.accounts
  rw [hremaining, List.nil_append] at haccounts
  have hlost : lost = [] := by
    rw [List.eq_nil_iff_forall_not_mem]
    intro height hmem
    have hrange := List.mem_range'_1.mp (haccounts.mem_iff.mp (List.mem_append_right sent hmem))
    have hnodup := List.nodup_append.mp (haccounts.nodup_iff.mpr List.nodup_range')
    exact hnodup.2.2 height (hsent height (hall height hrange.1 hrange.2)) height hmem rfl
  cases hany : s.workers.any Worker.failed with
  | false => rfl
  | true =>
      rcases h.failed hany with ⟨-, hne⟩ | ⟨height, hmem, -⟩
      · exact absurd hlost hne
      · rw [hlost] at hmem
        contradiction

end Workers

/-! ## Runs -/

/-- The consumer has done, and would do alone, what `consumeOrdered` does on the
messages received so far and those to come; once the channel is closed none come. -/
inductive Realised (cfg : PipelineConfig) (heights : List Nat) (start : Nat) (store : UtxoStore)
    (s : Pipeline) : Prop
  | going (received : List WorkItem) {sent lost : List Nat}
      (haccounted : Accounted cfg heights received sent lost s)
      (halone : ∀ items, aloneFrom cfg s items =
        consumeOrdered cfg.consume start store (received ++ items))
  | closed {received : List WorkItem} {sent lost : List Nat} {result : Except ConsumeStop Unit}
      (haccounted : Accounted cfg heights received sent lost s) (hchannel : s.channel = [])
      (hreturned : s.workers.all Worker.isReturned = true) (hphase : s.phase = .returned result)
      (hlost : lost = [] ∨ ∃ height ∈ lost, cfg.parse height = none)
      (hrun : (s.consumer, result) = consumeOrdered cfg.consume start store received)

section Runs

variable {cfg : PipelineConfig} {heights : List Nat} {start : Nat} {store : UtxoStore}
  {s s' : Pipeline}

theorem consumerStep_of_dropped (h : s.receiverDropped = true) : s.consumerStep cfg = none := by
  rw [receiverDropped] at h
  split at h
  · rename_i hphase
    rw [Pipeline.consumerStep, hphase]
  · contradiction

theorem remaining_of_all_returned {ws : List Worker} (h : ws.all Worker.isReturned = true) :
    ws.flatMap Worker.remaining = [] := by
  rw [List.flatMap_eq_nil_iff]
  intro w hw
  have hreturned := List.all_eq_true.mp h w hw
  cases w <;> first | rfl | cases hreturned

/-- A consumer step keeps the account; where it takes a message, that is received. -/
theorem Accounted.consumerStep {received received' : List WorkItem} {sent lost : List Nat}
    (h : Accounted cfg heights received sent lost s) (hstep : s.consumerStep cfg = some s')
    (hmessages : received' ++ s'.channel = received ++ s.channel) :
    Accounted cfg heights received' sent lost s' := by
  obtain ⟨hworkers, htripped⟩ := consumerStep_workers hstep
  refine ⟨hmessages ▸ h.made, hworkers ▸ h.accounts, hworkers ▸ h.sending,
    htripped.trans h.untripped, hworkers ▸ h.keeps, fun hfailed => ?_⟩
  rw [hworkers] at hfailed
  refine .inr ((h.failed hfailed).resolve_left fun hdropped => ?_)
  rw [consumerStep_of_dropped hdropped.1] at hstep
  contradiction

theorem Realised.consumerStep (h : Realised cfg heights start store s)
    (htripped : ∀ height, cfg.consume.faults.tripped height = false)
    (hstep : s.consumerStep cfg = some s') : Realised cfg heights start store s' := by
  cases h with
  | closed haccounted hchannel hreturned hphase =>
      rw [consumerStep_of_dropped (by rw [receiverDropped, hphase])] at hstep
      contradiction
  | @going received sent lost haccounted halone =>
      cases consumerStep_continues htripped haccounted.untripped hstep with
      | same hchannel hsame =>
          refine .going received (haccounted.consumerStep hstep (by rw [hchannel])) fun items => ?_
          rw [hsame, halone]
      | @takes item hchannel htakes =>
          refine .going (received ++ [item])
            (haccounted.consumerStep hstep (by rw [hchannel]; simp)) fun items => ?_
          rw [htakes, halone, List.append_assoc]
          rfl
      | closes hopen hchannel hchannel' hreturned hphase hcloses =>
          rw [halone, List.append_nil] at hcloses
          have hworkers := (consumerStep_workers hstep).1
          refine .closed (haccounted.consumerStep hstep (by rw [hchannel, hchannel'])) hchannel'
            (hworkers ▸ hreturned) hphase ?_ hcloses
          -- The receiver was there to the end: only a height that fails makes a worker fail.
          cases hany : s.workers.any Worker.failed with
          | false => exact .inl (haccounted.keeps hany)
          | true =>
              refine .inr ((haccounted.failed hany).resolve_left fun hdropped => ?_)
              rw [hopen] at hdropped
              cases hdropped.1

theorem Realised.moves (h : Realised cfg heights start store s)
    (htripped : ∀ height, cfg.consume.faults.tripped height = false)
    (hheight : ∀ height ∈ heights, ∀ item, cfg.parse height = some item → item.height = height)
    (hmoves : Moves cfg s s') : Realised cfg heights start store s' := by
  obtain ⟨actor, hactor, hstep⟩ := hmoves
  cases actor with
  | consumer => exact h.consumerStep htripped hstep
  | watchdog => contradiction
  | worker i =>
      obtain ⟨w, w', channel, hw, hworker, rfl⟩ := step_worker hstep
      cases h with
      | going received haccounted halone =>
          obtain ⟨sent', lost', haccounted'⟩ := haccounted.workerStep hheight hw hworker
          exact .going received haccounted' halone
      | closed haccounted hchannel hreturned =>
          -- All workers have returned already.
          have hdone := List.all_eq_true.mp hreturned w (List.mem_of_getElem? hw)
          cases w <;> contradiction

theorem Realised.initial (cfg : PipelineConfig) (start : Nat) (store : UtxoStore)
    {assigned : List (List Nat)} (hassigned : assigned.flatten.Perm heights) :
    Realised cfg heights start store (initial cfg start store assigned) := by
  have hnever : ∀ hs ∈ assigned, (Worker.next hs).failed = false := by
    intro hs _
    cases hs <;> rfl
  refine @going _ _ _ _ _ [] [] [] ⟨.nil, ?_, ?_, rfl, fun _ => rfl, ?_⟩
    fun items => rfl
  · show ((assigned.map Worker.next).flatMap Worker.remaining ++ []).Perm heights
    rw [List.append_nil, List.flatMap_map]
    simpa only [remaining_next, List.flatMap_id'] using hassigned
  · intro item rest hmem
    obtain ⟨hs, -, heq⟩ := List.mem_map.mp hmem
    cases hs <;> cases heq
  · intro hsome
    obtain ⟨w, hw, hfailed⟩ := List.any_eq_true.mp hsome
    obtain ⟨hs, hmem, rfl⟩ := List.mem_map.mp hw
    rw [hnever hs hmem] at hfailed
    contradiction

theorem Realised.runs (h : Realised cfg heights start store s)
    (htripped : ∀ height, cfg.consume.faults.tripped height = false)
    (hheight : ∀ height ∈ heights, ∀ item, cfg.parse height = some item → item.height = height)
    (hruns : Runs cfg s s') : Realised cfg heights start store s' := by
  induction hruns with
  | refl => exact h
  | tail _ hmoves ih => exact ih.moves htripped hheight hmoves

end Runs

end Pipeline

/-! ## The parse stage in the order of the messages -/

section Stage

variable {W : Type} {env : ParseEnv W} {pcfg : ParseConfig} {index : ChainIndex}

theorem height_of_parseHeight {height : Nat} {item : WorkItem}
    (h : parseHeight env pcfg index height = .ok item) : item.height = height := by
  rw [parseHeight] at h
  split at h
  · contradiction
  · split at h
    · contradiction
    · rw [parsePayload] at h
      split at h
      · contradiction
      · dsimp only at h
        split at h
        · obtain rfl := Except.ok.inj h
          rfl
        · split at h
          · obtain rfl := Except.ok.inj h
            rfl
          · contradiction

/-- The heights that parse come first: their messages, and what the stage makes of the
others. -/
theorem parseStage_append {sent : List Nat} (rest : List Nat) {items : List WorkItem}
    (h : List.Forall₂ (fun height item => parseHeight env pcfg index height = .ok item) sent
      items) :
    parseStage env pcfg index (sent ++ rest) =
      (items ++ (parseStage env pcfg index rest).1, (parseStage env pcfg index rest).2) := by
  induction h with
  | nil => rfl
  | cons hitem _ ih =>
      rw [List.cons_append, parseStage, hitem, ih]
      rfl

/-- The stage ends with the error of a height. -/
theorem parseStage_error {heights : List Nat} {stop : ParseStop}
    (h : (parseStage env pcfg index heights).2 = .error stop) :
    ∃ height ∈ heights, parseHeight env pcfg index height = .error stop := by
  induction heights with
  | nil => contradiction
  | cons height heights ih =>
      rw [parseStage] at h
      cases hheight : parseHeight env pcfg index height with
      | error stop' =>
          rw [hheight] at h
          obtain rfl : stop' = stop := Except.error.inj h
          exact ⟨height, List.mem_cons_self, hheight⟩
      | ok item =>
          rw [hheight] at h
          obtain ⟨height', hmem, herror⟩ := ih h
          exact ⟨height', List.mem_cons_of_mem _ hmem, herror⟩

theorem parseStage_fails {height : Nat} {rest : List Nat} {stop : ParseStop}
    (h : parseHeight env pcfg index height = .error stop) :
    parseStage env pcfg index (height :: rest) = ([], .error stop) := by
  rw [parseStage, h]

/-- The pipeline of a bulk parse. -/
def parsePipeline (env : ParseEnv W) (pcfg : ParseConfig) (index : ChainIndex)
    (endHeight reorderHigh channelDepth : Nat) : PipelineConfig where
  consume := ⟨endHeight, pcfg.blocksPerPart, env.faults, env.orders⟩
  reorderHigh
  channelDepth
  parse height := (parseHeight env pcfg index height).toOption

theorem toOption_eq_some {ε α : Type} {r : Except ε α} {a : α} :
    r.toOption = some a ↔ r = .ok a := by
  cases r <;> simp [Except.toOption]

theorem toOption_eq_none {ε α : Type} {r : Except ε α} (h : r.toOption = none) :
    ∃ e, r = .error e := by
  cases r with
  | ok => contradiction
  | error e => exact ⟨e, rfl⟩

/-- A bulk parse whose workers take the heights of the range in a given order. -/
def ParseEnv.ordered (env : ParseEnv W) (range order : List Nat) (horder : order.Perm range) :
    ParseEnv W :=
  { env with
    workerOrder := fun heights => if heights = range then order else heights
    workerOrder_perm := fun heights => by
      split
      · rename_i heq
        rw [heq]
        exact horder
      · exact .refl _ }

/-- A run whose workers and whose consumer have ended so. -/
def joined (stopped : Except ParseStop Unit) (c : Consumer) (result : Except ConsumeStop Unit) :
    ParseRun :=
  match stopped, result with
  | .error stop, _ => ⟨.error stop, c.store, c.sink⟩
  | .ok (), .error stop => ⟨.error (.consume stop), c.store, c.sink⟩
  | .ok (), .ok () => ⟨.ok (), c.store, c.sink⟩

/-- The run over a range in a given order, from what its two stages come to. -/
theorem parseOver_ordered {start endHeight : Nat} {store : UtxoStore} {order : List Nat}
    (horder : order.Perm (List.range' start (endHeight - start)))
    {items : List WorkItem} {stopped : Except ParseStop Unit}
    (hstage : parseStage env pcfg index order = (items, stopped)) {c : Consumer}
    {result : Except ConsumeStop Unit}
    (hconsumed : consumeOrdered ⟨endHeight, pcfg.blocksPerPart, env.faults, env.orders⟩ start
      store items = (c, result)) :
    parseOver (env.ordered _ order horder) pcfg index start endHeight store =
      joined stopped c result := by
  have hstage' : parseStage (env.ordered _ order horder) pcfg index
      ((env.ordered _ order horder).workerOrder (List.range' start (endHeight - start))) =
        (items, stopped) := by
    have hkept : ∀ heights, parseStage (env.ordered _ order horder) pcfg index heights =
        parseStage env pcfg index heights := by
      intro heights
      induction heights with
      | nil => rfl
      | cons height heights ih =>
          rw [parseStage, parseStage, ih]
          rfl
    rw [hkept, ← hstage]
    exact congrArg _ (if_pos rfl)
  rw [parseOver]
  simp only [hstage']
  rw [show consumeOrdered ⟨endHeight, pcfg.blocksPerPart,
    (env.ordered _ order horder).faults, (env.ordered _ order horder).orders⟩ start store items =
      (c, result) from hconsumed]
  rfl

end Stage

namespace Pipeline

variable {W : Type} (env : ParseEnv W) (pcfg : ParseConfig) (index : ChainIndex)

/-- What a finished interleaving has in common with a parse that handles the heights in
`order`. -/
structure Sequenced (start endHeight : Nat) (store : UtxoStore) (order : List Nat) (s : Pipeline)
    (result : Except ConsumeStop Unit) (run : ParseRun) : Prop where
  /-- The consumer ends where it would alone, on the messages of that order. -/
  consumed : consumeOrdered ⟨endHeight, pcfg.blocksPerPart, env.faults, env.orders⟩ start store
    (parseStage env pcfg index order).1 = (s.consumer, result)
  store : run.store = s.consumer.store
  sink : run.sink = s.consumer.sink
  /-- The one returns if and only if the consumer and all workers of the other have. -/
  returns : run.result = .ok () ↔ result = .ok () ∧ ∀ w ∈ s.workers, w.failed = false
  /-- A consumer that fails without a failed worker gives the run its error. -/
  fails : ∀ stop, result = .error stop → (∀ w ∈ s.workers, w.failed = false) →
    run.result = .error (.consume stop)
  /-- There is no other error but that of a height that does not parse. -/
  errors : ∀ stop, run.result = .error stop →
    (∃ stop', result = .error stop' ∧ stop = .consume stop') ∨
      ∃ height ∈ order, parseHeight env pcfg index height = .error stop

variable {env pcfg index}

/-- Where the workers' stage ends with an error, one of them has failed. -/
theorem sequenced_joined {start endHeight : Nat} {store : UtxoStore} {order : List Nat}
    {s : Pipeline} {items : List WorkItem} {stopped : Except ParseStop Unit}
    {result : Except ConsumeStop Unit}
    (hstage : parseStage env pcfg index order = (items, stopped))
    (hconsumed : (s.consumer, result) =
      consumeOrdered ⟨endHeight, pcfg.blocksPerPart, env.faults, env.orders⟩ start store items)
    (hreturned : result = .ok () → ∀ w ∈ s.workers, w.failed = false)
    (hstopped : ∀ stop, stopped = .error stop → ¬∀ w ∈ s.workers, w.failed = false) :
    Sequenced env pcfg index start endHeight store order s result
      (joined stopped s.consumer result) := by
  have hitems : (parseStage env pcfg index order).1 = items := by rw [hstage]
  have hstop : ∀ stop, stopped = .error stop →
      ∃ height ∈ order, parseHeight env pcfg index height = .error stop := fun stop heq =>
    parseStage_error (by rw [hstage]; exact heq)
  have hsame : consumeOrdered ⟨endHeight, pcfg.blocksPerPart, env.faults, env.orders⟩ start store
      (parseStage env pcfg index order).1 = (s.consumer, result) := by
    rw [hitems]
    exact hconsumed.symm
  cases stopped with
  | error stop =>
      have hfailed := hstopped stop rfl
      refine ⟨hsame, rfl, rfl, iff_of_false ?_ fun h => hfailed h.2,
        fun _ _ hall => absurd hall hfailed, fun stop' heq => .inr ?_⟩
      · exact fun hok => nomatch hok
      · obtain rfl : stop = stop' := Except.error.inj heq
        exact hstop stop rfl
  | ok =>
      cases result with
      | ok =>
          refine ⟨hsame, rfl, rfl, iff_of_true rfl ⟨rfl, hreturned rfl⟩, fun stop heq => ?_,
            fun stop heq => ?_⟩
          · cases heq
          · cases heq
      | error stop =>
          refine ⟨hsame, rfl, rfl, iff_of_false ?_ ?_, fun stop' heq _ => ?_,
            fun stop' heq => .inl ⟨stop, rfl, ?_⟩⟩
          · exact fun hok => nomatch hok
          · exact fun h => nomatch h.1
          · obtain rfl := Except.error.inj heq
            rfl
          · exact (Except.error.inj heq).symm

variable (env pcfg index)

/-- For every number of workers, assignment of the heights, watermark and channel depth,
and whatever fails besides the watchdog: when the consumer and all workers have
returned, the consumer has done what it does alone on the messages of the heights in one
order, and the store, the calls to the sink and the result are those of `parseOver` over
that order. -/
theorem pipeline_runs_parseOver (start endHeight reorderHigh channelDepth : Nat)
    (store : UtxoStore) (assigned : List (List Nat))
    (hassigned : assigned.flatten.Perm (List.range' start (endHeight - start)))
    (htripped : ∀ height, env.faults.tripped height = false) {s : Pipeline}
    (hruns : Runs (parsePipeline env pcfg index endHeight reorderHigh channelDepth)
      (initial (parsePipeline env pcfg index endHeight reorderHigh channelDepth) start store
        assigned) s)
    {result : Except ConsumeStop Unit} (hphase : s.phase = .returned result)
    (hreturned : s.workers.all Worker.isReturned = true) :
    ∃ (order : List Nat) (horder : order.Perm (List.range' start (endHeight - start))),
      Sequenced env pcfg index start endHeight store order s result
        (parseOver (env.ordered _ order horder) pcfg index start endHeight store) := by
  have hheight : ∀ height item,
      (parsePipeline env pcfg index endHeight reorderHigh channelDepth).parse height = some item →
        item.height = height := fun _ _ hitem =>
    height_of_parseHeight (toOption_eq_some.mp hitem)
  have hrealised := (Realised.initial _ start store hassigned).runs htripped
    (fun height _ => hheight height) hruns
  have hremaining := remaining_of_all_returned hreturned
  have hmade : ∀ {received : List WorkItem} {sent lost : List Nat},
      Accounted (parsePipeline env pcfg index endHeight reorderHigh channelDepth)
        (List.range' start (endHeight - start)) received sent lost s →
      List.Forall₂ (fun height item => parseHeight env pcfg index height = .ok item) sent
        (received ++ s.channel) := fun h =>
    h.made.imp fun _ _ hitem => toOption_eq_some.mp hitem
  -- A consumer that returns has received every height, so no worker can have failed.
  have hactive : ∀ {received : List WorkItem} {sent lost : List Nat},
      Accounted (parsePipeline env pcfg index endHeight reorderHigh channelDepth)
        (List.range' start (endHeight - start)) received sent lost s →
      (s.consumer, result) =
        consumeOrdered ⟨endHeight, pcfg.blocksPerPart, env.faults, env.orders⟩ start store
          received → result = .ok () → ∀ w ∈ s.workers, w.failed = false := by
    intro received sent lost haccounted hrun hok w hw
    have hnone := haccounted.none_failed hremaining hheight fun height hle hlt =>
      consumeOrdered_received start store received (by rw [← hrun]; exact hok) hle
        (show height < endHeight by omega)
    exact Bool.eq_false_of_not_eq_true (List.any_eq_false.mp hnone w hw)
  have hnone : (∀ w ∈ s.workers, w.failed = false) → s.workers.any Worker.failed = false :=
    fun h => List.any_eq_false.mpr fun w hw => by rw [h w hw]; exact Bool.false_ne_true
  cases hrealised with
  | @going received sent lost haccounted halone =>
      -- The consumer had returned before the channel closed: later messages change nothing.
      have horder := haccounted.accounts
      rw [hremaining, List.nil_append] at horder
      have hstage := parseStage_append lost (hmade haccounted)
      have hrun := halone (s.channel ++ (parseStage env pcfg index lost).1)
      rw [← List.append_assoc, aloneFrom, hphase, alone] at hrun
      have hrun' := halone []
      rw [List.append_nil, aloneFrom, hphase, alone] at hrun'
      refine ⟨sent ++ lost, horder, ?_⟩
      rw [parseOver_ordered horder hstage hrun.symm]
      refine sequenced_joined hstage hrun (hactive haccounted hrun') fun stop hstop hall => ?_
      rw [haccounted.keeps (hnone hall)] at hstop
      cases hstop
  | @closed received sent lost result' haccounted hchannel hreturned' hphase' hlost hrun =>
      obtain rfl : result' = result := by
        rw [hphase] at hphase'
        exact (ConsumerPhase.returned.inj hphase').symm
      have horder := haccounted.accounts
      have hsent := hmade haccounted
      rw [hremaining, List.nil_append] at horder
      rw [hchannel, List.append_nil] at hsent
      rcases hlost with rfl | ⟨height, hmem, hfails⟩
      · have hstage := parseStage_append [] hsent
        rw [parseStage, List.append_nil received] at hstage
        refine ⟨sent ++ [], horder, ?_⟩
        rw [parseOver_ordered horder hstage hrun.symm]
        exact sequenced_joined hstage hrun (hactive haccounted hrun) fun stop hstop => by
          cases hstop
      · -- A height that fails comes first among those that were not sent.
        obtain ⟨stop, hstop⟩ := toOption_eq_none hfails
        have hstage := parseStage_append (height :: lost.erase height) hsent
        rw [parseStage_fails hstop, List.append_nil] at hstage
        have horder' : (sent ++ height :: lost.erase height).Perm
            (List.range' start (endHeight - start)) :=
          ((List.perm_cons_erase hmem).symm.append_left sent).trans horder
        refine ⟨_, horder', ?_⟩
        rw [parseOver_ordered horder' hstage hrun.symm]
        refine sequenced_joined hstage hrun (hactive haccounted hrun) fun _ _ hall => ?_
        rw [haccounted.keeps (hnone hall)] at hmem
        cases hmem

/-! Three blocks and two workers; the worker with the middle block sends first. -/

/-- The index of the sample file. -/
def sampleIndex : ChainIndex := ⟨(fileRecords 0 oldChain).map fun e => e.1.location, ∅⟩

def sampleParsePipeline : PipelineConfig :=
  parsePipeline (fileEnv treeDigests oldChain) (sampleParse 0 3) sampleIndex 3 0 4

/-- The other worker waits at its second height until the first two are applied. -/
def sampleSchedule : List Actor :=
  List.replicate 3 (.worker 1) ++ List.replicate 5 .consumer ++ List.replicate 6 (.worker 0) ++
    List.replicate 8 .consumer ++ List.replicate 3 (.worker 0) ++ List.replicate 5 .consumer

/-- Everyone has returned, and the consumer without an error. -/
def hasReturnedOk (s : Pipeline) : Bool :=
  s.workers.all Worker.isReturned &&
    match s.phase with
    | .returned (.ok ()) => true
    | _ => false

theorem pipeline_runs_parseOver_sample :
    ∃ s, runSchedule sampleParsePipeline sampleSchedule
        (initial sampleParsePipeline 0 (.openBulk .fresh) [[0, 2], [1]]) = some s ∧
      ∃ (order : List Nat) (horder : order.Perm (List.range' 0 (3 - 0))),
        Sequenced (fileEnv treeDigests oldChain) (sampleParse 0 3) sampleIndex 0 3
          (.openBulk .fresh) order s (.ok ())
          (parseOver ((fileEnv treeDigests oldChain).ordered _ order horder)
            (sampleParse 0 3) sampleIndex 0 3 (.openBulk .fresh)) := by
  have hcheck : ((runSchedule sampleParsePipeline sampleSchedule
      (initial sampleParsePipeline 0 (.openBulk .fresh) [[0, 2], [1]])).any
        hasReturnedOk) = true := by
    decide +kernel
  obtain ⟨s, hs, hfacts⟩ := (Option.any_eq_true _ _).mp hcheck
  rw [hasReturnedOk, Bool.and_eq_true] at hfacts
  have hphase : s.phase = .returned (.ok ()) := by
    cases hphase : s.phase with
    | returned result =>
        cases result with
        | ok => rfl
        | error stop => simp [hphase] at hfacts
    | _ => simp [hphase] at hfacts
  exact ⟨s, hs, pipeline_runs_parseOver (fileEnv treeDigests oldChain) (sampleParse 0 3) sampleIndex
    0 3 0 4 (.openBulk .fresh) [[0, 2], [1]] (by decide) (fun _ => rfl)
    (runs_of_runSchedule (by decide) hs) hphase hfacts.1⟩

end Pipeline

end Bidx
