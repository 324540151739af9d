import Bidx.Pipeline.Consume

/-!
# Workers, channel and consumer

The parse stage of `run_parse` as a step relation.  Each worker handles the heights it
was assigned in order: it loops while the reorder buffer is above the watermark and
its height is not the one the consumer waits for, then parses and sends the message
into the bounded channel.  The consumer is `consume_ordered` taken apart where it
touches the channel and the two shared counters: receiving, putting the message away
(`fetch_add`), passing skipped heights, taking a block out of the buffer (`fetch_sub`),
and applying it, which ends in the store of the next height.  A step is one such
action of one party; the counters are read as sequentially consistent.

* `reorder_depth` is the consumer's `reorderDepth` and `next_height` its `next`, which
  the source stores right after it changes it.
* The two loads of the loop condition are two steps.
* A send into a full channel waits; once the consumer has returned, the receiver is
  gone and every send fails.
* When a worker has failed, a worker that has just sent its message stops, as Rayon's
  `try_for_each` does; otherwise it turns to its next height in the same step.
* The channel is closed when all workers have returned.
* The RSS watchdog trips in a step of its own and stays tripped.
-/

namespace Bidx

/-- Where a worker stands; `rest` are the heights it has still to handle. -/
inductive Worker where
  /-- About to load `reorder_depth`. -/
  | testing (height : Nat) (rest : List Nat)
  /-- The buffer was above the watermark; about to load `next_height`. -/
  | comparing (height : Nat) (rest : List Nat)
  /-- Out of the loop. -/
  | parsing (height : Nat) (rest : List Nat)
  | sending (item : WorkItem) (rest : List Nat)
  | returned (ok : Bool)

namespace Worker

/-- A worker that turns to its next height. -/
def next : List Nat → Worker
  | [] => .returned true
  | height :: rest => .testing height rest

def failed : Worker → Bool
  | .returned ok => !ok
  | _ => false

def isReturned : Worker → Bool
  | .returned _ => true
  | _ => false

/-- The heights the worker has not sent. -/
def remaining : Worker → List Nat
  | .testing height rest => height :: rest
  | .comparing height rest => height :: rest
  | .parsing height rest => height :: rest
  | .sending item rest => item.height :: rest
  | .returned _ => []

end Worker

/-- Where the consumer stands. -/
inductive ConsumerPhase where
  | starting
  | receiving
  | received (item : WorkItem)
  | skipping
  | draining
  | applying (block : FullBlock)
  | returned (result : Except ConsumeStop Unit)

structure PipelineConfig where
  consume : ConsumeConfig
  /-- `REORDER_HIGH`. -/
  reorderHigh : Nat
  /-- `CHANNEL_DEPTH`. -/
  channelDepth : Nat
  /-- What a worker makes of a height, `none` where it fails. -/
  parse : Nat → Option WorkItem

structure Pipeline where
  workers : List Worker
  channel : List WorkItem
  consumer : Consumer
  phase : ConsumerPhase
  tripped : Bool

inductive Actor where
  | consumer
  | worker (i : Nat)
  | watchdog
deriving DecidableEq

namespace Pipeline

/-- The consumer has returned and dropped the receiver. -/
def receiverDropped (s : Pipeline) : Bool :=
  match s.phase with
  | .returned _ => true
  | _ => false

/-! ## The consumer -/

/-- The consumer goes on at `phase` when a part of its loop has not returned. -/
def resume (s : Pipeline) (phase : ConsumerPhase) : Step → Pipeline
  | .running c => { s with consumer := c, phase }
  | .returned c result => { s with consumer := c, phase := .returned result }

/-- The end of the receive loop: the channel is closed. -/
def closeChannel (cfg : PipelineConfig) (s : Pipeline) : Pipeline :=
  match finishSink cfg.consume s.consumer with
  | .returned c (.ok ()) =>
      if c.next < cfg.consume.endHeight then
        { s with
          consumer := c
          phase := .returned (.error (.channelClosedEarly c.next cfg.consume.endHeight)) }
      else
        { s with consumer := c, phase := .returned (.ok ()) }
  | step => s.resume .receiving step

def consumerStep (cfg : PipelineConfig) (s : Pipeline) : Option Pipeline :=
  let c := s.consumer
  match s.phase with
  | .starting =>
      if cfg.consume.faults.create c.partId then
        some { s with phase := .returned (.error .sink) }
      else
        some { s with
          consumer := { c with sink := c.sink ++ [.create c.partId] }
          phase := .receiving }
  | .receiving =>
      match s.channel with
      | item :: channel => some { s with channel, phase := .received item }
      -- `recv` fails only when every sender is gone; an empty channel is waited on.
      | [] => if s.workers.all Worker.isReturned then some (s.closeChannel cfg) else none
  | .received item => some { s with consumer := receive item c, phase := .skipping }
  | .skipping =>
      if c.next ∈ c.skippedQueue then
        some (s.resume .skipping
          (advance cfg.consume { c with skippedQueue := c.skippedQueue.erase c.next }))
      else
        some { s with phase := .draining }
  | .draining =>
      match c.buffer.lookup c.next with
      | none => some { s with phase := .receiving }
      | some block =>
          let removed := { c with buffer := c.buffer.erase c.next }
          -- The block is out of the buffer when the watchdog is polled.
          if s.tripped then
            some { s with consumer := removed, phase := .returned (.error .watchdog) }
          else
            some { s with
              consumer := { removed with reorderDepth := removed.reorderDepth - 1 }
              phase := .applying block }
  | .applying block =>
      match rotatePart cfg.consume c with
      | .running c => some (s.resume .draining (applyAndPush cfg.consume block c))
      | .returned c result => some { s with consumer := c, phase := .returned result }
  | .returned _ => none

/-! ## The workers -/

/-- Where a worker goes after its message is in the channel. -/
def afterSend (s : Pipeline) (rest : List Nat) : Worker :=
  if s.workers.any Worker.failed then .returned true else .next rest

/-- A worker's step: where it stands then, and the channel. -/
def workerStep (cfg : PipelineConfig) (s : Pipeline) : Worker → Option (Worker × List WorkItem)
  | .testing height rest =>
      if cfg.reorderHigh < s.consumer.reorderDepth then
        some (.comparing height rest, s.channel)
      else
        some (.parsing height rest, s.channel)
  | .comparing height rest =>
      if s.consumer.next = height then
        some (.parsing height rest, s.channel)
      -- A worker polls the watchdog only while it waits.
      else if s.tripped then
        some (.returned false, s.channel)
      else
        some (.testing height rest, s.channel)
  | .parsing height rest =>
      match cfg.parse height with
      | some item => some (.sending item rest, s.channel)
      | none => some (.returned false, s.channel)
  | .sending item rest =>
      if s.receiverDropped then
        some (.returned false, s.channel)
      else if s.channel.length < cfg.channelDepth then
        -- The message is in the channel even when the worker stops after it.
        some (s.afterSend rest, s.channel ++ [item])
      else
        none
  | .returned _ => none

/-! ## Steps and runs -/

/-- A step of one party, where it is enabled. -/
def step (cfg : PipelineConfig) (s : Pipeline) : Actor → Option Pipeline
  | .consumer => s.consumerStep cfg
  | .worker i =>
      match s.workers[i]? with
      | none => none
      | some w =>
          match s.workerStep cfg w with
          | none => none
          | some (w', channel) => some { s with workers := s.workers.set i w', channel }
  | .watchdog => some { s with tripped := true }

/-- The steps of a schedule. -/
def runSchedule (cfg : PipelineConfig) : List Actor → Pipeline → Option Pipeline
  | [], s => some s
  | actor :: actors, s =>
      match s.step cfg actor with
      | none => none
      | some s => runSchedule cfg actors s

/-- A step of a worker or the consumer. -/
def Moves (cfg : PipelineConfig) (s s' : Pipeline) : Prop :=
  ∃ actor, actor ≠ .watchdog ∧ s.step cfg actor = some s'

/-- Any number of steps in which the watchdog does not trip. -/
abbrev Runs (cfg : PipelineConfig) : Pipeline → Pipeline → Prop :=
  Relation.ReflTransGen (Moves cfg)

/-- The pipeline before its first step: the heights are assigned to the workers. -/
def initial (cfg : PipelineConfig) (start : Nat) (store : UtxoStore)
    (assigned : List (List Nat)) : Pipeline where
  workers := assigned.map .next
  channel := []
  consumer := { initialConsumer cfg.consume start store with sink := [] }
  phase := .starting
  tripped := false

/-- What a step of the consumer can be, one constructor for each way through it. -/
inductive ConsumerMove (cfg : PipelineConfig) (s : Pipeline) : Pipeline → Prop
  | createFails (hphase : s.phase = .starting)
      (hcreate : cfg.consume.faults.create s.consumer.partId = true) :
      ConsumerMove cfg s { s with phase := .returned (.error .sink) }
  | creates (hphase : s.phase = .starting)
      (hcreate : cfg.consume.faults.create s.consumer.partId = false) :
      ConsumerMove cfg s { s with
        consumer := { s.consumer with sink := s.consumer.sink ++ [.create s.consumer.partId] }
        phase := .receiving }
  | receives {item : WorkItem} {channel : List WorkItem} (hphase : s.phase = .receiving)
      (hchannel : s.channel = item :: channel) :
      ConsumerMove cfg s { s with channel, phase := .received item }
  | closes (hphase : s.phase = .receiving) (hchannel : s.channel = [])
      (hreturned : s.workers.all Worker.isReturned = true) :
      ConsumerMove cfg s (s.closeChannel cfg)
  | stores {item : WorkItem} (hphase : s.phase = .received item) :
      ConsumerMove cfg s { s with consumer := receive item s.consumer, phase := .skipping }
  | skips (hphase : s.phase = .skipping) (hmem : s.consumer.next ∈ s.consumer.skippedQueue) :
      ConsumerMove cfg s (s.resume .skipping (advance cfg.consume
        { s.consumer with skippedQueue := s.consumer.skippedQueue.erase s.consumer.next }))
  | drains (hphase : s.phase = .skipping) (hmem : s.consumer.next ∉ s.consumer.skippedQueue) :
      ConsumerMove cfg s { s with phase := .draining }
  | waits (hphase : s.phase = .draining)
      (hlookup : s.consumer.buffer.lookup s.consumer.next = none) :
      ConsumerMove cfg s { s with phase := .receiving }
  | stopsOnTrip {block : FullBlock} (hphase : s.phase = .draining)
      (hlookup : s.consumer.buffer.lookup s.consumer.next = some block)
      (htripped : s.tripped = true) :
      ConsumerMove cfg s { s with
        consumer := { s.consumer with buffer := s.consumer.buffer.erase s.consumer.next }
        phase := .returned (.error .watchdog) }
  | takes {block : FullBlock} (hphase : s.phase = .draining)
      (hlookup : s.consumer.buffer.lookup s.consumer.next = some block)
      (htripped : s.tripped = false) :
      ConsumerMove cfg s { s with
        consumer := { s.consumer with
          buffer := s.consumer.buffer.erase s.consumer.next
          reorderDepth := s.consumer.reorderDepth - 1 }
        phase := .applying block }
  | applies {block : FullBlock} {c : Consumer} (hphase : s.phase = .applying block)
      (hrotate : rotatePart cfg.consume s.consumer = .running c) :
      ConsumerMove cfg s (s.resume .draining (applyAndPush cfg.consume block c))
  | rotateFails {block : FullBlock} {c : Consumer} {result : Except ConsumeStop Unit}
      (hphase : s.phase = .applying block)
      (hrotate : rotatePart cfg.consume s.consumer = .returned c result) :
      ConsumerMove cfg s { s with consumer := c, phase := .returned result }

/-- Everything the consumer's step can do. -/
theorem consumerStep_move {cfg : PipelineConfig} {s s' : Pipeline}
    (h : s.consumerStep cfg = some s') : ConsumerMove cfg s s' := by
  unfold consumerStep at h
  cases hphase : s.phase with
  | starting =>
      simp only [hphase] at h
      split at h
      · rename_i hcreate
        obtain rfl := Option.some.inj h
        exact .createFails hphase hcreate
      · rename_i hcreate
        obtain rfl := Option.some.inj h
        exact .creates hphase (Bool.eq_false_of_not_eq_true hcreate)
  | receiving =>
      simp only [hphase] at h
      split at h
      · rename_i item channel hchannel
        obtain rfl := Option.some.inj h
        exact .receives hphase hchannel
      · rename_i hchannel
        split at h
        · rename_i hreturned
          obtain rfl := Option.some.inj h
          exact .closes hphase hchannel hreturned
        · contradiction
  | received item =>
      simp only [hphase] at h
      obtain rfl := Option.some.inj h
      exact .stores hphase
  | skipping =>
      simp only [hphase] at h
      split at h
      · rename_i hmem
        obtain rfl := Option.some.inj h
        exact .skips hphase hmem
      · rename_i hmem
        obtain rfl := Option.some.inj h
        exact .drains hphase hmem
  | draining =>
      simp only [hphase] at h
      split at h
      · rename_i hlookup
        obtain rfl := Option.some.inj h
        exact .waits hphase hlookup
      · rename_i block hlookup
        split at h
        · rename_i htripped
          obtain rfl := Option.some.inj h
          exact .stopsOnTrip hphase hlookup htripped
        · rename_i htripped
          obtain rfl := Option.some.inj h
          exact .takes hphase hlookup (Bool.eq_false_of_not_eq_true htripped)
  | applying block =>
      simp only [hphase] at h
      split at h
      · rename_i c hrotate
        obtain rfl := Option.some.inj h
        exact .applies hphase hrotate
      · rename_i c result hrotate
        obtain rfl := Option.some.inj h
        exact .rotateFails hphase hrotate
  | returned result =>
      simp only [hphase] at h
      contradiction

/-- What a step of a worker can be: where it stood, where it stands then, and the channel. -/
inductive WorkerMove (cfg : PipelineConfig) (s : Pipeline) : Worker → Worker → List WorkItem → Prop
  | waits {height : Nat} {rest : List Nat} (hhigh : cfg.reorderHigh < s.consumer.reorderDepth) :
      WorkerMove cfg s (.testing height rest) (.comparing height rest) s.channel
  | passes {height : Nat} {rest : List Nat} (hlow : s.consumer.reorderDepth ≤ cfg.reorderHigh) :
      WorkerMove cfg s (.testing height rest) (.parsing height rest) s.channel
  | isNext {height : Nat} {rest : List Nat} (hnext : s.consumer.next = height) :
      WorkerMove cfg s (.comparing height rest) (.parsing height rest) s.channel
  | stopsOnTrip {height : Nat} {rest : List Nat} (htripped : s.tripped = true) :
      WorkerMove cfg s (.comparing height rest) (.returned false) s.channel
  | retests {height : Nat} {rest : List Nat} (hnext : s.consumer.next ≠ height) :
      WorkerMove cfg s (.comparing height rest) (.testing height rest) s.channel
  | parses {height : Nat} {rest : List Nat} {item : WorkItem} (hparse : cfg.parse height = some item) :
      WorkerMove cfg s (.parsing height rest) (.sending item rest) s.channel
  | parseFails {height : Nat} {rest : List Nat} (hparse : cfg.parse height = none) :
      WorkerMove cfg s (.parsing height rest) (.returned false) s.channel
  | sendFails {item : WorkItem} {rest : List Nat} (hdropped : s.receiverDropped = true) :
      WorkerMove cfg s (.sending item rest) (.returned false) s.channel
  | sends {item : WorkItem} {rest : List Nat} (hopen : s.receiverDropped = false)
      (hroom : s.channel.length < cfg.channelDepth) :
      WorkerMove cfg s (.sending item rest) (s.afterSend rest) (s.channel ++ [item])

/-- Everything a worker's step can do. -/
theorem workerStep_move {cfg : PipelineConfig} {s : Pipeline} {w w' : Worker}
    {channel : List WorkItem} (h : s.workerStep cfg w = some (w', channel)) :
    WorkerMove cfg s w w' channel := by
  cases w with
  | testing height rest =>
      rw [workerStep] at h
      split at h
      · rename_i hhigh
        obtain ⟨rfl, rfl⟩ := Prod.mk.inj (Option.some.inj h)
        exact .waits hhigh
      · rename_i hlow
        obtain ⟨rfl, rfl⟩ := Prod.mk.inj (Option.some.inj h)
        exact .passes (Nat.le_of_not_lt hlow)
  | comparing height rest =>
      rw [workerStep] at h
      split at h
      · rename_i hnext
        obtain ⟨rfl, rfl⟩ := Prod.mk.inj (Option.some.inj h)
        exact .isNext hnext
      · rename_i hnext
        split at h
        · rename_i htripped
          obtain ⟨rfl, rfl⟩ := Prod.mk.inj (Option.some.inj h)
          exact .stopsOnTrip htripped
        · obtain ⟨rfl, rfl⟩ := Prod.mk.inj (Option.some.inj h)
          exact .retests hnext
  | parsing height rest =>
      rw [workerStep] at h
      split at h
      · rename_i item hparse
        obtain ⟨rfl, rfl⟩ := Prod.mk.inj (Option.some.inj h)
        exact .parses hparse
      · rename_i hparse
        obtain ⟨rfl, rfl⟩ := Prod.mk.inj (Option.some.inj h)
        exact .parseFails hparse
  | sending item rest =>
      rw [workerStep] at h
      split at h
      · rename_i hdropped
        obtain ⟨rfl, rfl⟩ := Prod.mk.inj (Option.some.inj h)
        exact .sendFails hdropped
      · rename_i hopen
        split at h
        · rename_i hroom
          obtain ⟨rfl, rfl⟩ := Prod.mk.inj (Option.some.inj h)
          exact .sends (Bool.eq_false_of_not_eq_true hopen) hroom
        · contradiction
  | returned ok => contradiction

/-- A step of a worker changes that worker and the channel only. -/
theorem step_worker {cfg : PipelineConfig} {s s' : Pipeline} {i : Nat}
    (h : s.step cfg (.worker i) = some s') :
    ∃ w w' channel, s.workers[i]? = some w ∧ s.workerStep cfg w = some (w', channel) ∧
      s' = { s with workers := s.workers.set i w', channel } := by
  rw [step] at h
  split at h
  · contradiction
  · rename_i w hw
    split at h
    · contradiction
    · rename_i w' channel hstep
      exact ⟨w, w', channel, hw, hstep, (Option.some.inj h).symm⟩

theorem step_worker_eq {cfg : PipelineConfig} {s : Pipeline} {i : Nat} {w w' : Worker}
    {channel : List WorkItem} (hw : s.workers[i]? = some w)
    (hstep : s.workerStep cfg w = some (w', channel)) :
    s.step cfg (.worker i) = some { s with workers := s.workers.set i w', channel } := by
  rw [step, hw]
  simp only [hstep]

theorem runs_of_runSchedule {cfg : PipelineConfig} {actors : List Actor} {s s' : Pipeline}
    (hactors : .watchdog ∉ actors) (h : runSchedule cfg actors s = some s') : Runs cfg s s' := by
  induction actors generalizing s with
  | nil =>
      obtain rfl := Option.some.inj h
      exact .refl
  | cons actor actors ih =>
      rw [List.mem_cons, not_or] at hactors
      rw [runSchedule] at h
      split at h
      · contradiction
      · rename_i s₁ hstep
        exact .head ⟨actor, Ne.symm hactors.1, hstep⟩ (ih hactors.2 h)

end Pipeline

end Bidx
