import Bidx.Pipeline.Backpressure

/-!
# The bound on the reorder buffer

The watermark is tested before a block is parsed and counted only after it is
received.  What is between the two, in a worker's or the consumer's hands or in the
channel, escapes it, and the worker that holds the height the consumer waits for is
exempt altogether.

A height is cleared when its worker has left the loop, until its block is taken out of
the buffer.  A worker that leaves the loop below the watermark finds at most
`reorderHigh` of the cleared heights in the buffer, one with the consumer,
`channelDepth` in the channel and one with each worker.  A worker that is exempt adds
the height the consumer waits for, and that height is only added once: when the
consumer is past it, it is no longer cleared.
-/

namespace Bidx

namespace Worker

/-- The height with which the worker has left the loop. -/
def cleared : Worker → List Nat
  | .parsing height _ => [height]
  | .sending item _ => [item.height]
  | _ => []

theorem length_cleared_le (w : Worker) : w.cleared.length ≤ 1 := by
  cases w <;> simp [cleared]

theorem cleared_sublist (w : Worker) : w.cleared.Sublist w.remaining := by
  cases w <;> simp [cleared, remaining]

theorem cleared_next (rest : List Nat) : (Worker.next rest).cleared = [] := by
  cases rest <;> rfl

theorem length_flatMap_cleared_le (ws : List Worker) :
    (ws.flatMap Worker.cleared).length ≤ ws.length := by
  induction ws with
  | nil => exact le_rfl
  | cons w ws ih =>
      have hw := w.length_cleared_le
      rw [List.flatMap_cons, List.length_append, List.length_cons]
      omega

theorem flatMap_cleared_sublist (ws : List Worker) :
    (ws.flatMap Worker.cleared).Sublist (ws.flatMap Worker.remaining) := by
  induction ws with
  | nil => exact .refl _
  | cons w ws ih =>
      rw [List.flatMap_cons, List.flatMap_cons]
      exact w.cleared_sublist.append ih

end Worker

/-! ## What a step does to the heights -/

/-- The part of the consumer that holds heights. -/
structure SameBuffer (c c' : Consumer) : Prop where
  buffer : c'.buffer = c.buffer
  skippedQueue : c'.skippedQueue = c.skippedQueue
  reorderDepth : c'.reorderDepth = c.reorderDepth

/-- The consumer a part of the loop ends with. -/
def Step.consumer : Step → Consumer
  | .running c => c
  | .returned c _ => c

section Consumer

variable (cfg : ConsumeConfig)

theorem finishSink_returned (c : Consumer) :
    ∃ c' result, finishSink cfg c = .returned c' result ∧ SameBuffer c c' ∧ c'.next = c.next := by
  rw [finishSink]
  split
  · exact ⟨_, _, rfl, ⟨rfl, rfl, rfl⟩, rfl⟩
  · exact ⟨_, _, rfl, ⟨rfl, rfl, rfl⟩, rfl⟩

theorem advance_sameBuffer (c : Consumer) : SameBuffer c (advance cfg c).consumer := by
  rw [advance]
  split
  · exact ⟨rfl, rfl, rfl⟩
  split
  · obtain ⟨c', result, hfinish, hsame, -⟩ := finishSink_returned cfg { c with next := c.next + 1 }
    rw [hfinish]
    exact ⟨hsame.buffer, hsame.skippedQueue, hsame.reorderDepth⟩
  · exact ⟨rfl, rfl, rfl⟩

theorem rotatePart_sameBuffer (c : Consumer) :
    SameBuffer c (rotatePart cfg c).consumer ∧ (rotatePart cfg c).consumer.next = c.next := by
  rw [rotatePart]
  split
  · exact ⟨⟨rfl, rfl, rfl⟩, rfl⟩
  split
  · exact ⟨⟨rfl, rfl, rfl⟩, rfl⟩
  dsimp only
  split <;> exact ⟨⟨rfl, rfl, rfl⟩, rfl⟩

theorem applyAndPush_sameBuffer (block : FullBlock) (c : Consumer) :
    SameBuffer c (applyAndPush cfg block c).consumer := by
  rw [applyAndPush]
  split
  · exact ⟨rfl, rfl, rfl⟩
  dsimp only
  split
  · exact ⟨rfl, rfl, rfl⟩
  · have hsame := advance_sameBuffer cfg
    exact ⟨(hsame _).buffer, (hsame _).skippedQueue, (hsame _).reorderDepth⟩

end Consumer

namespace Pipeline

/-- A phase in which the consumer has no height in its hands. -/
def HandsFree : ConsumerPhase → Prop
  | .received _ => False
  | .applying _ => False
  | _ => True

/-- The height of the message the consumer has received and not put away. -/
def held (s : Pipeline) : List Nat :=
  match s.phase with
  | .received item => [item.height]
  | _ => []

/-- The heights behind the loop whose blocks are not taken out of the buffer. -/
def cleared (s : Pipeline) : List Nat :=
  s.held ++ (s.consumer.buffer.keys ++
    (s.channel.map WorkItem.height ++ s.workers.flatMap Worker.cleared))

theorem inHand_of_handsFree {s : Pipeline} (h : HandsFree s.phase) : s.inHand = [] := by
  unfold inHand
  cases hphase : s.phase <;> simp only [hphase, HandsFree] at h ⊢

theorem held_of_handsFree {s : Pipeline} (h : HandsFree s.phase) : s.held = [] := by
  unfold held
  cases hphase : s.phase <;> simp only [hphase, HandsFree] at h ⊢

/-- A step of the consumer, as far as heights are concerned. -/
inductive ConsumerEffect (s : Pipeline) : Pipeline → Prop
  /-- Nothing moves; only a height in the consumer's hands can be passed. -/
  | goesOn {c : Consumer} {phase : ConsumerPhase} (hheld : s.held = [])
      (hsame : SameBuffer s.consumer c) (hfree : HandsFree phase)
      (hnext : c.next = s.consumer.next ∨ s.inHand = [s.consumer.next]) :
      ConsumerEffect s { s with consumer := c, phase }
  | receives {item : WorkItem} {channel : List WorkItem} (hphase : s.phase = .receiving)
      (hchannel : s.channel = item :: channel) :
      ConsumerEffect s { s with channel, phase := .received item }
  | stores {item : WorkItem} (hphase : s.phase = .received item) :
      ConsumerEffect s { s with consumer := receive item s.consumer, phase := .skipping }
  | skips {c : Consumer} {phase : ConsumerPhase} (hphase : s.phase = .skipping)
      (hmem : s.consumer.next ∈ s.consumer.skippedQueue)
      (hbuffer : c.buffer = s.consumer.buffer)
      (hskipped : c.skippedQueue = s.consumer.skippedQueue.erase s.consumer.next)
      (hdepth : c.reorderDepth = s.consumer.reorderDepth) (hfree : HandsFree phase) :
      ConsumerEffect s { s with consumer := c, phase }
  | takes {block : FullBlock} (hphase : s.phase = .draining)
      (hlookup : s.consumer.buffer.lookup s.consumer.next = some block) :
      ConsumerEffect s { s with
        consumer := { s.consumer with
          buffer := s.consumer.buffer.erase s.consumer.next
          reorderDepth := s.consumer.reorderDepth - 1 }
        phase := .applying block }

/-- A step of a worker. -/
inductive WorkerEffect (cfg : PipelineConfig) (s : Pipeline) (w w' : Worker)
    (channel : List WorkItem) : Prop
  | stays (hchannel : channel = s.channel) (hremaining : w'.remaining.Sublist w.remaining)
      (hcleared : w'.cleared.Sublist w.cleared)
  /-- The loop is left below the watermark or with the height the consumer waits for. -/
  | leaves (height : Nat) (hchannel : channel = s.channel)
      (hremaining : w'.remaining = w.remaining) (hbefore : w.cleared = [])
      (hcleared : w'.cleared = [height])
      (hwhy : s.consumer.reorderDepth ≤ cfg.reorderHigh ∨ height = s.consumer.next)
  | sends (item : WorkItem) (rest : List Nat) (hchannel : channel = s.channel ++ [item])
      (hroom : s.channel.length < cfg.channelDepth) (hbefore : w = .sending item rest)
      (hremaining : w'.remaining.Sublist rest) (hcleared : w'.cleared = [])

section Effects

variable {cfg : PipelineConfig} {s s' : Pipeline} {w w' : Worker} {channel : List WorkItem}

theorem resume_eq (s : Pipeline) (phase : ConsumerPhase) (step : Step) :
    ∃ phase', s.resume phase step = { s with consumer := step.consumer, phase := phase' } ∧
      (phase' = phase ∨ ∃ result, phase' = .returned result) := by
  cases step with
  | running c => exact ⟨phase, rfl, .inl rfl⟩
  | returned c result => exact ⟨.returned result, rfl, .inr ⟨result, rfl⟩⟩

theorem closeChannel_effect (hphase : s.phase = .receiving) :
    ConsumerEffect s (s.closeChannel cfg) := by
  have hheld : s.held = [] := held_of_handsFree (by rw [hphase]; trivial)
  obtain ⟨c, result, hfinish, hsame, hnext⟩ := finishSink_returned cfg.consume s.consumer
  rw [closeChannel, hfinish]
  cases result with
  | error e => exact .goesOn hheld hsame trivial (.inl hnext)
  | ok u =>
      dsimp only
      split <;> exact .goesOn hheld hsame trivial (.inl hnext)

theorem skipping_effect (hphase : s.phase = .skipping)
    (hmem : s.consumer.next ∈ s.consumer.skippedQueue) :
    ConsumerEffect s (s.resume .skipping (advance cfg.consume
      { s.consumer with skippedQueue := s.consumer.skippedQueue.erase s.consumer.next })) := by
  have hsame := advance_sameBuffer cfg.consume
    { s.consumer with skippedQueue := s.consumer.skippedQueue.erase s.consumer.next }
  obtain ⟨phase, hresume, hgoes⟩ := s.resume_eq .skipping (advance cfg.consume
    { s.consumer with skippedQueue := s.consumer.skippedQueue.erase s.consumer.next })
  rw [hresume]
  refine .skips hphase hmem hsame.buffer hsame.skippedQueue hsame.reorderDepth ?_
  rcases hgoes with rfl | ⟨result, rfl⟩ <;> trivial

theorem applying_effect {block : FullBlock} {c : Consumer} (hphase : s.phase = .applying block)
    (hrotate : SameBuffer s.consumer c) :
    ConsumerEffect s (s.resume .draining (applyAndPush cfg.consume block c)) := by
  have hheld : s.held = [] := by rw [held, hphase]
  have hhand : s.inHand = [s.consumer.next] := by rw [inHand, hphase]
  have happly := applyAndPush_sameBuffer cfg.consume block c
  obtain ⟨phase, hresume, hgoes⟩ := s.resume_eq .draining (applyAndPush cfg.consume block c)
  rw [hresume]
  refine .goesOn hheld ⟨?_, ?_, ?_⟩ ?_ (.inr hhand)
  · exact happly.buffer.trans hrotate.buffer
  · exact happly.skippedQueue.trans hrotate.skippedQueue
  · exact happly.reorderDepth.trans hrotate.reorderDepth
  · rcases hgoes with rfl | ⟨result, rfl⟩ <;> trivial

/-- Everything a step of the consumer can do, the watchdog not having tripped. -/
theorem consumerStep_effect (htripped : s.tripped = false) (h : s.consumerStep cfg = some s') :
    ConsumerEffect s s' := by
  have hsame : SameBuffer s.consumer s.consumer := ⟨rfl, rfl, rfl⟩
  have hfree (hphase : HandsFree s.phase) : s.held = [] := held_of_handsFree hphase
  have hrotated := (rotatePart_sameBuffer cfg.consume s.consumer).1
  cases consumerStep_move h with
  | createFails hphase =>
      rw [hphase] at hfree
      exact .goesOn (hfree trivial) hsame trivial (.inl rfl)
  | creates hphase =>
      rw [hphase] at hfree
      exact .goesOn (hfree trivial) ⟨rfl, rfl, rfl⟩ trivial (.inl rfl)
  | receives hphase hchannel => exact .receives hphase hchannel
  | closes hphase => exact closeChannel_effect hphase
  | stores hphase => exact .stores hphase
  | skips hphase hmem => exact skipping_effect hphase hmem
  | drains hphase =>
      rw [hphase] at hfree
      exact .goesOn (hfree trivial) hsame trivial (.inl rfl)
  | waits hphase =>
      rw [hphase] at hfree
      exact .goesOn (hfree trivial) hsame trivial (.inl rfl)
  | stopsOnTrip hphase hlookup htrip =>
      rw [htripped] at htrip
      contradiction
  | takes hphase hlookup => exact .takes hphase hlookup
  | applies hphase hrotate =>
      rw [hrotate] at hrotated
      exact applying_effect hphase hrotated
  | @rotateFails block c result hphase hrotate =>
      have hheld : s.held = [] := by rw [held, hphase]
      have hhand : s.inHand = [s.consumer.next] := by rw [inHand, hphase]
      rw [hrotate] at hrotated
      exact .goesOn hheld hrotated trivial (.inr hhand)

theorem afterSend_remaining (s : Pipeline) (rest : List Nat) :
    (s.afterSend rest).remaining.Sublist rest ∧ (s.afterSend rest).cleared = [] := by
  rw [afterSend]
  split
  · exact ⟨List.nil_sublist rest, rfl⟩
  · exact ⟨by rw [remaining_next], Worker.cleared_next rest⟩

/-- Everything a step of a worker can do, when a message has the height it was parsed for. -/
theorem workerStep_effect
    (hparse : ∀ height item, cfg.parse height = some item → item.height = height)
    (h : s.workerStep cfg w = some (w', channel)) : WorkerEffect cfg s w w' channel := by
  cases workerStep_move h with
  | waits => exact .stays rfl (.refl _) (.refl _)
  | passes hlow => exact .leaves _ rfl rfl rfl rfl (.inl hlow)
  | isNext hnext => exact .leaves _ rfl rfl rfl rfl (.inr hnext.symm)
  | stopsOnTrip => exact .stays rfl (List.nil_sublist _) (.refl _)
  | retests => exact .stays rfl (.refl _) (.refl _)
  | @parses height rest item hitem =>
      have hheight := hparse height item hitem
      refine .stays rfl ?_ ?_
      · rw [Worker.remaining, Worker.remaining, hheight]
      · rw [Worker.cleared, Worker.cleared, hheight]
  | parseFails => exact .stays rfl (List.nil_sublist _) (List.nil_sublist _)
  | sendFails => exact .stays rfl (List.nil_sublist _) (List.nil_sublist _)
  | @sends item rest hopen hroom =>
      obtain ⟨hremaining, hcleared⟩ := s.afterSend_remaining rest
      exact .sends item rest rfl hroom rfl hremaining hcleared

end Effects

/-! ## No height is in two places -/

section Workers

variable {α β : Type} {l : List α} {i : Nat} {a a' : α} {f : α → List β} {b : β}

/-- A worker that keeps what it has, or loses of it. -/
theorem flatMap_set_subperm (ha : l[i]? = some a) (hsub : (f a').Sublist (f a)) :
    ((l.set i a').flatMap f).Subperm (l.flatMap f) := by
  obtain ⟨others, hold, hnew⟩ := flatMap_set_perm f ha
  exact ((hnew a').subperm.trans (hsub.append (.refl others)).subperm).trans hold.symm.subperm

/-- A worker that hands its first on. -/
theorem cons_flatMap_set_subperm {rest : List β} (ha : l[i]? = some a) (hfirst : f a = b :: rest)
    (hsub : (f a').Sublist rest) : (b :: (l.set i a').flatMap f).Subperm (l.flatMap f) := by
  obtain ⟨others, hold, hnew⟩ := flatMap_set_perm f ha
  have hcons : (b :: (f a' ++ others)).Subperm (f a ++ others) := by
    rw [hfirst, List.cons_append]
    exact ((hsub.append (.refl others)).cons_cons b).subperm
  exact (((hnew a').cons b).subperm.trans hcons).trans hold.symm.subperm

/-- A worker that gets its first. -/
theorem flatMap_set_perm_cons (ha : l[i]? = some a) (hbefore : f a = []) (hafter : f a' = [b]) :
    ((l.set i a').flatMap f).Perm (b :: l.flatMap f) := by
  obtain ⟨others, hold, hnew⟩ := flatMap_set_perm f ha
  have hgets := hnew a'
  rw [hafter, List.singleton_append] at hgets
  rw [hbefore, List.nil_append] at hold
  exact hgets.trans (hold.symm.cons b)

end Workers

/-- A block that is buffered under its height. -/
theorem insert_keys_append_subperm (buffer : AList fun _ : Nat => FullBlock) (height : Nat)
    (block : FullBlock) (rest : List Nat) :
    ((buffer.insert height block).keys ++ rest).Subperm (height :: (buffer.keys ++ rest)) := by
  rw [AList.keys_insert, List.cons_append]
  exact ((List.erase_sublist.append (.refl rest)).cons_cons height).subperm

section Outstanding

variable {cfg : PipelineConfig} {s s' : Pipeline} {w w' : Worker} {channel : List WorkItem} {i : Nat}

theorem ConsumerEffect.outstanding (h : ConsumerEffect s s') :
    s'.outstanding.Subperm s.outstanding := by
  cases h with
  | @goesOn c phase hheld hsame hfree hnext =>
      have hhand : inHand { s with consumer := c, phase } = [] := inHand_of_handsFree hfree
      rw [Pipeline.outstanding, hhand, hsame.buffer]
      exact (List.sublist_append_right _ _).subperm
  | @receives item channel hphase hchannel =>
      rw [Pipeline.outstanding, Pipeline.outstanding, inHand, inHand, hphase, hchannel]
      change (item.height :: (s.consumer.buffer.keys ++ _)).Subperm
        (s.consumer.buffer.keys ++ (item.height :: _))
      exact List.perm_middle.symm.subperm
  | @stores item hphase =>
      rw [Pipeline.outstanding, Pipeline.outstanding, inHand, inHand, hphase]
      cases item with
      | block height block =>
          exact insert_keys_append_subperm s.consumer.buffer height block _
      | skipped height => exact (List.sublist_cons_self height _).subperm
  | @skips c phase hphase hmem hbuffer hskipped hdepth hfree =>
      have hhand : inHand { s with consumer := c, phase } = [] := inHand_of_handsFree hfree
      rw [Pipeline.outstanding, hhand, hbuffer]
      exact (List.sublist_append_right _ _).subperm
  | @takes block hphase hlookup =>
      rw [Pipeline.outstanding, Pipeline.outstanding, inHand, inHand, hphase]
      have hmem : s.consumer.next ∈ s.consumer.buffer.keys := KeyValue.mem_keys_of_lookup hlookup
      change (s.consumer.next :: ((s.consumer.buffer.erase s.consumer.next).keys ++ _)).Subperm
        (s.consumer.buffer.keys ++ _)
      rw [AList.keys_erase, ← List.cons_append]
      exact ((List.perm_cons_erase hmem).symm.append_right _).subperm

theorem WorkerEffect.outstanding (h : WorkerEffect cfg s w w' channel)
    (hw : s.workers[i]? = some w) :
    (Pipeline.outstanding { s with workers := s.workers.set i w', channel }).Subperm
      s.outstanding := by
  refine (List.subperm_append_left _).mpr ((List.subperm_append_left _).mpr ?_)
  change (channel.map WorkItem.height ++ (s.workers.set i w').flatMap Worker.remaining).Subperm
    (s.channel.map WorkItem.height ++ s.workers.flatMap Worker.remaining)
  cases h with
  | stays hchannel hremaining hcleared =>
      rw [hchannel]
      exact (List.subperm_append_left _).mpr (flatMap_set_subperm hw hremaining)
  | leaves height hchannel hremaining hbefore hcleared hwhy =>
      rw [hchannel]
      have hkeeps : w'.remaining.Sublist w.remaining := by rw [hremaining]
      exact (List.subperm_append_left _).mpr (flatMap_set_subperm hw hkeeps)
  | sends item rest hchannel hroom hbefore hremaining hcleared =>
      subst hbefore
      rw [hchannel, List.map_append, List.append_assoc]
      exact (List.subperm_append_left _).mpr (cons_flatMap_set_subperm hw rfl hremaining)

end Outstanding

/-! ## The cleared heights -/

section Cleared

variable {cfg : PipelineConfig} {s s' : Pipeline} {w w' : Worker} {channel : List WorkItem} {i : Nat}

theorem cleared_sublist_outstanding (s : Pipeline) : s.cleared.Sublist s.outstanding := by
  have hhand : s.held.Sublist s.inHand := by
    unfold held inHand
    cases s.phase <;> simp
  exact hhand.append ((List.Sublist.refl _).append
    ((List.Sublist.refl _).append (Worker.flatMap_cleared_sublist _)))

/-- A block that is being applied is out of the buffer, and its height is nowhere else. -/
theorem not_mem_cleared_of_inHand (hunique : s.outstanding.Nodup) (hheld : s.held = [])
    (hhand : s.inHand = [s.consumer.next]) : s.consumer.next ∉ s.cleared := by
  rw [outstanding, hhand, List.singleton_append, List.nodup_cons] at hunique
  rw [cleared, hheld, List.nil_append]
  intro hmem
  refine hunique.1 (List.Sublist.subset ?_ hmem)
  exact (List.Sublist.refl _).append
    ((List.Sublist.refl _).append (Worker.flatMap_cleared_sublist _))

theorem ConsumerEffect.cleared (h : ConsumerEffect s s') : s'.cleared.Subperm s.cleared := by
  cases h with
  | @goesOn c phase hheld hsame hfree hnext =>
      have hfresh : held { s with consumer := c, phase } = [] := held_of_handsFree hfree
      rw [Pipeline.cleared, Pipeline.cleared, hheld, hfresh, hsame.buffer]
  | @receives item channel hphase hchannel =>
      rw [Pipeline.cleared, Pipeline.cleared, held, held, hphase, hchannel]
      change (item.height :: (s.consumer.buffer.keys ++ _)).Subperm
        (s.consumer.buffer.keys ++ (item.height :: _))
      exact List.perm_middle.symm.subperm
  | @stores item hphase =>
      rw [Pipeline.cleared, Pipeline.cleared, held, held, hphase]
      cases item with
      | block height block =>
          exact insert_keys_append_subperm s.consumer.buffer height block _
      | skipped height => exact (List.sublist_cons_self height _).subperm
  | @skips c phase hphase hmem hbuffer hskipped hdepth hfree =>
      have hfresh : held { s with consumer := c, phase } = [] := held_of_handsFree hfree
      rw [Pipeline.cleared, Pipeline.cleared, hfresh, hbuffer]
      exact (List.sublist_append_right _ _).subperm
  | @takes block hphase hlookup =>
      rw [Pipeline.cleared, Pipeline.cleared, held, held, hphase]
      change ((s.consumer.buffer.erase s.consumer.next).keys ++ _).Subperm
        (s.consumer.buffer.keys ++ _)
      rw [AList.keys_erase]
      exact (List.erase_sublist.append (.refl _)).subperm

theorem WorkerEffect.cleared (h : WorkerEffect cfg s w w' channel) (hw : s.workers[i]? = some w) :
    (Pipeline.cleared { s with workers := s.workers.set i w', channel }).Subperm s.cleared ∨
      ∃ height, channel = s.channel ∧
        (Pipeline.cleared { s with workers := s.workers.set i w', channel }).Perm
          (height :: s.cleared) ∧
        (s.consumer.reorderDepth ≤ cfg.reorderHigh ∨ height = s.consumer.next) := by
  cases h with
  | stays hchannel hremaining hcleared =>
      left
      subst hchannel
      exact (List.subperm_append_left _).mpr ((List.subperm_append_left _).mpr
        ((List.subperm_append_left _).mpr (flatMap_set_subperm hw hcleared)))
  | leaves height hchannel hremaining hbefore hcleared hwhy =>
      right
      subst hchannel
      refine ⟨height, rfl, ?_, hwhy⟩
      have hgets := flatMap_set_perm_cons hw hbefore hcleared
      have hchan := (hgets.append_left (s.channel.map WorkItem.height)).trans List.perm_middle
      have hkeys := (hchan.append_left s.consumer.buffer.keys).trans List.perm_middle
      exact (hkeys.append_left s.held).trans List.perm_middle
  | sends item rest hchannel hroom hbefore hremaining hcleared =>
      left
      subst hbefore hchannel
      refine (List.subperm_append_left _).mpr ((List.subperm_append_left _).mpr ?_)
      change ((s.channel ++ [item]).map WorkItem.height ++ _).Subperm _
      rw [List.map_append, List.append_assoc]
      have hnone : w'.cleared.Sublist [] := by rw [hcleared]
      exact (List.subperm_append_left _).mpr (cons_flatMap_set_subperm hw rfl hnone)

end Cleared

/-! ## The invariant -/

/-- Of the cleared heights at most this many are not the one the consumer waits for; the rest
says where they can be. -/
structure WithinBound (cfg : PipelineConfig) (workers : Nat) (s : Pipeline) : Prop where
  untripped : s.tripped = false
  workerCount : s.workers.length = workers
  channel : s.channel.length ≤ cfg.channelDepth
  depth : s.consumer.reorderDepth = s.consumer.buffer.keys.length
  unique : s.outstanding.Nodup
  skipped : ∀ height ∈ s.consumer.skippedQueue, height ∉ s.outstanding
  cleared : s.cleared.countP (· ≠ s.consumer.next) ≤
    cfg.reorderHigh + cfg.channelDepth + workers + 1

section Invariant

variable {cfg : PipelineConfig} {workers : Nat} {s s' : Pipeline} {w w' : Worker}
  {channel : List WorkItem} {i : Nat}

theorem nodup_of_subperm {α : Type} [DecidableEq α] {l l' : List α} (h : l'.Subperm l)
    (hl : l.Nodup) : l'.Nodup := by
  rw [List.nodup_iff_count_le_one] at hl ⊢
  exact fun a => (h.count_le a).trans (hl a)

/-- A list without repetitions has one element more than the count of the others, at most. -/
theorem length_le_countP_ne {α : Type} [DecidableEq α] {l : List α} (hl : l.Nodup) (a : α) :
    l.length ≤ l.countP (· ≠ a) + 1 := by
  have hothers : (l.erase a).countP (· ≠ a) = (l.erase a).length := by
    rw [List.countP_eq_length]
    intro b hb
    simpa using (hl.mem_erase_iff.mp hb).1
  have hle : (l.erase a).countP (· ≠ a) ≤ l.countP (· ≠ a) := List.erase_sublist.countP_le
  have hlen : l.length ≤ (l.erase a).length + 1 := by
    rw [List.length_erase]
    split <;> omega
  omega

/-- Only the height the consumer waits for escapes the count, and it is there once. -/
theorem WithinBound.length_cleared_le (h : WithinBound cfg workers s) :
    s.cleared.length ≤ cfg.reorderHigh + cfg.channelDepth + workers + 2 := by
  have hnodup := h.unique.sublist s.cleared_sublist_outstanding
  have hlength := length_le_countP_ne hnodup s.consumer.next
  have hbound := h.cleared
  omega

/-- A step after which no more is cleared, and which passes no cleared height. -/
theorem WithinBound.countP_le (h : WithinBound cfg workers s)
    (hcleared : s'.cleared.Subperm s.cleared)
    (hnext : s'.consumer.next = s.consumer.next ∨ s.consumer.next ∉ s.cleared) :
    s'.cleared.countP (· ≠ s'.consumer.next) ≤
      cfg.reorderHigh + cfg.channelDepth + workers + 1 := by
  have hbound := h.cleared
  rcases hnext with hnext | hnot
  · rw [hnext]
    exact (hcleared.countP_le _).trans hbound
  · -- All of them are counted already.
    have hall : s.cleared.countP (· ≠ s.consumer.next) = s.cleared.length := by
      rw [List.countP_eq_length]
      intro height hmem
      simpa using fun heq : height = s.consumer.next => hnot (heq ▸ hmem)
    have hle := hcleared.length_le
    have hcount := List.countP_le_length (p := fun height => decide (height ≠ s'.consumer.next))
      (l := s'.cleared)
    omega

/-- The step of a worker that leaves the loop below the watermark. -/
theorem WithinBound.length_cleared_of_low (h : WithinBound cfg workers s)
    (hlow : s.consumer.reorderDepth ≤ cfg.reorderHigh) (ws : List Worker)
    (hws : ws.length = workers) :
    (Pipeline.cleared { s with workers := ws }).length ≤
      cfg.reorderHigh + cfg.channelDepth + workers + 1 := by
  have hheld : s.held.length ≤ 1 := by
    unfold held
    cases s.phase <;> simp
  have hcleared := Worker.length_flatMap_cleared_le ws
  have hdepth := h.depth
  have hchannel := h.channel
  change (s.held ++ (s.consumer.buffer.keys ++ (s.channel.map WorkItem.height ++
    ws.flatMap Worker.cleared))).length ≤ _
  simp only [List.length_append, List.length_map]
  omega

theorem WithinBound.workerStep (h : WithinBound cfg workers s) (hw : s.workers[i]? = some w)
    (heffect : WorkerEffect cfg s w w' channel) :
    WithinBound cfg workers { s with workers := s.workers.set i w', channel } where
  untripped := h.untripped
  workerCount := by
    rw [List.length_set]
    exact h.workerCount
  channel := by
    have hchannel := h.channel
    cases heffect with
    | stays heq => exact heq ▸ hchannel
    | leaves height heq => exact heq ▸ hchannel
    | sends item rest heq hroom =>
        rw [heq, List.length_append, List.length_singleton]
        omega
  depth := h.depth
  unique := nodup_of_subperm (heffect.outstanding hw) h.unique
  skipped height hmem := fun hout => h.skipped height hmem ((heffect.outstanding hw).subset hout)
  cleared := by
    rcases heffect.cleared hw with hsub | ⟨height, heq, hperm, hwhy⟩
    · exact h.countP_le hsub (.inl rfl)
    rcases hwhy with hlow | rfl
    · subst heq
      exact List.countP_le_length.trans
        (h.length_cleared_of_low hlow _ (by rw [List.length_set, h.workerCount]))
    · -- The exempt height is not counted.
      rw [hperm.countP_eq, List.countP_cons_of_neg (by simp)]
      exact h.cleared

theorem ConsumerEffect.next (heffect : ConsumerEffect s s') (h : WithinBound cfg workers s) :
    s'.consumer.next = s.consumer.next ∨ s.consumer.next ∉ s.cleared := by
  cases heffect with
  | goesOn hheld hsame hfree hnext =>
      exact hnext.imp_right (not_mem_cleared_of_inHand h.unique hheld)
  | receives => exact .inl rfl
  | @stores item =>
      left
      cases item <;> rfl
  | skips hphase hmem =>
      exact .inr fun hcleared => h.skipped _ hmem (s.cleared_sublist_outstanding.subset hcleared)
  | takes => exact .inl rfl

/-- The counter counts the buffer. -/
theorem ConsumerEffect.depth (heffect : ConsumerEffect s s') (h : WithinBound cfg workers s) :
    s'.consumer.reorderDepth = s'.consumer.buffer.keys.length := by
  have hdepth := h.depth
  cases heffect with
  | goesOn hheld hsame hfree hnext => exact hsame.reorderDepth.trans (hsame.buffer ▸ hdepth)
  | receives => exact hdepth
  | @stores item hphase =>
      cases item with
      | block height block =>
          have hunique : (height :: (s.consumer.buffer.keys ++ (s.channel.map WorkItem.height ++
              s.workers.flatMap Worker.remaining))).Nodup := by
            have hold := h.unique
            rwa [Pipeline.outstanding, inHand, hphase] at hold
          have hnew : height ∉ s.consumer.buffer.keys := fun hmem =>
            (List.nodup_cons.mp hunique).1 (List.mem_append_left _ hmem)
          change s.consumer.reorderDepth + 1 = (s.consumer.buffer.insert height block).keys.length
          rw [AList.keys_insert, List.erase_of_not_mem hnew, List.length_cons, hdepth]
      | skipped height => exact hdepth
  | skips hphase hmem hbuffer hskipped heq => exact heq.trans (hbuffer ▸ hdepth)
  | @takes block hphase hlookup =>
      have hmem : s.consumer.next ∈ s.consumer.buffer.keys := KeyValue.mem_keys_of_lookup hlookup
      change s.consumer.reorderDepth - 1 = (s.consumer.buffer.erase s.consumer.next).keys.length
      rw [AList.keys_erase, List.length_erase_of_mem hmem, hdepth]

/-- A height in the skipped queue has left the other places. -/
theorem ConsumerEffect.skipped (heffect : ConsumerEffect s s') (h : WithinBound cfg workers s) :
    ∀ height ∈ s'.consumer.skippedQueue, height ∉ s'.outstanding := by
  have hsub := heffect.outstanding.subset
  have hkeep : s'.consumer.skippedQueue ⊆ s.consumer.skippedQueue →
      ∀ height ∈ s'.consumer.skippedQueue, height ∉ s'.outstanding :=
    fun hqueue height hmem hout => h.skipped height (hqueue hmem) (hsub hout)
  cases heffect with
  | goesOn hheld hsame hfree hnext => exact hkeep hsame.skippedQueue.subset
  | receives => exact hkeep (Finset.Subset.refl _)
  | @stores item hphase =>
      cases item with
      | block height block => exact hkeep (Finset.Subset.refl _)
      | skipped height =>
          intro queued hmem hout
          have hunique := h.unique
          rw [Pipeline.outstanding, inHand, hphase] at hunique
          rcases Finset.mem_insert.mp hmem with rfl | hold
          · exact (List.nodup_cons.mp hunique).1 hout
          · exact h.skipped queued hold (hsub hout)
  | skips hphase hmem hbuffer hskipped => exact hkeep (hskipped ▸ Finset.erase_subset _ _)
  | takes => exact hkeep (Finset.Subset.refl _)

theorem WithinBound.consumerStep (h : WithinBound cfg workers s) (heffect : ConsumerEffect s s') :
    WithinBound cfg workers s' where
  untripped := by cases heffect <;> exact h.untripped
  workerCount := by cases heffect <;> exact h.workerCount
  channel := by
    have hchannel := h.channel
    cases heffect with
    | receives hphase heq =>
        rw [heq, List.length_cons] at hchannel
        exact Nat.le_of_succ_le hchannel
    | goesOn => exact hchannel
    | stores => exact hchannel
    | skips => exact hchannel
    | takes => exact hchannel
  depth := heffect.depth h
  unique := nodup_of_subperm heffect.outstanding h.unique
  skipped := heffect.skipped h
  cleared := h.countP_le heffect.cleared (heffect.next h)

theorem WithinBound.moves (h : WithinBound cfg workers s)
    (hparse : ∀ height item, cfg.parse height = some item → item.height = height)
    (hmoves : Moves cfg s s') : WithinBound cfg workers s' := by
  obtain ⟨actor, hactor, hstep⟩ := hmoves
  cases actor with
  | consumer => exact h.consumerStep (consumerStep_effect h.untripped hstep)
  | worker i =>
      obtain ⟨w, w', channel, hw, hworker, rfl⟩ := step_worker hstep
      exact h.workerStep hw (workerStep_effect hparse hworker)
  | watchdog => contradiction

end Invariant

theorem WithinBound.initial (cfg : PipelineConfig) (start : Nat) (store : UtxoStore)
    {assigned : List (List Nat)} (hassigned : assigned.flatten.Nodup) :
    WithinBound cfg assigned.length (initial cfg start store assigned) := by
  have hremaining : (assigned.map Worker.next).flatMap Worker.remaining = assigned.flatten := by
    rw [List.flatMap_map]
    simp only [remaining_next, List.flatMap_id']
  have hcleared : (assigned.map Worker.next).flatMap Worker.cleared = [] := by
    rw [List.flatMap_map, List.flatMap_eq_nil_iff]
    exact fun heights _ => Worker.cleared_next heights
  constructor
  case untripped => rfl
  case workerCount => exact List.length_map _
  case channel => exact Nat.zero_le _
  case depth => rfl
  case unique =>
    show ((assigned.map Worker.next).flatMap Worker.remaining).Nodup
    rw [hremaining]
    exact hassigned
  case skipped => intro height hmem; exact absurd hmem (Finset.notMem_empty height)
  case cleared =>
    show ((assigned.map Worker.next).flatMap Worker.cleared).countP _ ≤ _
    rw [hcleared]
    exact Nat.zero_le _

/-- **The reorder buffer is bounded.**  With each height given to one worker, in every state of
every interleaving the buffer holds at most `reorderHigh + channelDepth + W + 2` blocks for `W`
workers; the counter is the number of buffered blocks, and it is not zero when a block is taken
out of the buffer. -/
theorem reorder_bound (cfg : PipelineConfig) (start : Nat) (store : UtxoStore)
    (assigned : List (List Nat)) (hassigned : assigned.flatten.Nodup)
    (hparse : ∀ height item, cfg.parse height = some item → item.height = height)
    {s : Pipeline} (hruns : Runs cfg (initial cfg start store assigned) s) :
    s.consumer.buffer.keys.length ≤ cfg.reorderHigh + cfg.channelDepth + assigned.length + 2 ∧
      s.consumer.reorderDepth = s.consumer.buffer.keys.length ∧
      (s.consumer.buffer.lookup s.consumer.next ≠ none → 1 ≤ s.consumer.reorderDepth) := by
  have hbound : WithinBound cfg assigned.length s := by
    induction hruns with
    | refl => exact WithinBound.initial cfg start store hassigned
    | tail _ hmoves ih => exact ih.moves hparse hmoves
  have hbuffer : s.consumer.buffer.keys.length ≤ s.cleared.length := by
    rw [cleared, List.length_append, List.length_append]
    omega
  refine ⟨hbuffer.trans hbound.length_cleared_le, hbound.depth, fun hlookup => ?_⟩
  obtain ⟨block, hblock⟩ := Option.ne_none_iff_exists'.mp hlookup
  have hmem : s.consumer.next ∈ s.consumer.buffer.keys := KeyValue.mem_keys_of_lookup hblock
  rw [hbound.depth]
  exact List.length_pos_of_mem hmem

/-- The three blocks and two workers of the sample: height 1 waits in the buffer. -/
theorem reorder_bound_sample :
    ∃ s, runSchedule samplePipeline
        (.consumer :: List.replicate 3 (.worker 1) ++ List.replicate 4 .consumer)
        (initial samplePipeline 0 (.openBulk sampleDb) [[0, 2], [1]]) = some s ∧
      s.consumer.buffer.keys.length ≤ 0 + 1 + 2 + 2 ∧
      s.consumer.reorderDepth = s.consumer.buffer.keys.length ∧
      (s.consumer.buffer.lookup s.consumer.next ≠ none → 1 ≤ s.consumer.reorderDepth) := by
  have hruns : (runSchedule samplePipeline
      (.consumer :: List.replicate 3 (.worker 1) ++ List.replicate 4 .consumer)
      (initial samplePipeline 0 (.openBulk sampleDb) [[0, 2], [1]])).isSome = true := by
    decide +kernel
  obtain ⟨s, hs⟩ := Option.isSome_iff_exists.mp hruns
  refine ⟨s, hs, reorder_bound samplePipeline 0 (.openBulk sampleDb) [[0, 2], [1]] (by decide) ?_
    (runs_of_runSchedule (by decide) hs)⟩
  intro height item hitem
  obtain ⟨block, -, rfl⟩ := Option.map_eq_some_iff.mp hitem
  rfl

end Pipeline

end Bidx
