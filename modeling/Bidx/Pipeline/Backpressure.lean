import Mathlib.Data.List.Perm.Basic
import Bidx.Live.Chain
import Bidx.Pipeline.Shutdown

/-!
# Backpressure does not deadlock

In a run without failures every height is in one place: applied, in the consumer's
hands, in the reorder buffer, in the channel, or still with a worker (`Ledger`).  The
consumer only waits when the buffer does not hold the height it needs; then that height
is with a worker, and because workers go through their heights upwards and everything
below is applied, it is the height the worker is at.  That worker is exempt from the
watermark, and when it sends, the channel it sends into is empty.
-/

namespace Bidx

/-! ## The ledger of heights -/

/-- The heights from `start` on are those below `next`, which are done, and the
outstanding ones, each once. -/
def Ledger (start endHeight next : Nat) (outstanding : List Nat) : Prop :=
  (List.range' start (next - start) ++ outstanding).Perm (List.range' start (endHeight - start))

namespace Ledger

variable {start endHeight next h : Nat} {out out' : List Nat}

theorem congr (hledger : Ledger start endHeight next out) (hout : out'.Perm out) :
    Ledger start endHeight next out' :=
  (hout.append_left _).trans hledger

/-- The next height is done. -/
theorem pass (hledger : Ledger start endHeight next (next :: out)) (hstart : start ≤ next) :
    Ledger start endHeight (next + 1) out := by
  have hrange : List.range' start (next + 1 - start) =
      List.range' start (next - start) ++ [next] := by
    rw [Nat.sub_add_comm hstart, List.range'_concat]
    congr 2
    omega
  rw [Ledger, hrange, List.append_assoc, List.singleton_append]
  exact hledger

theorem mem_iff (hledger : Ledger start endHeight next out) (hstart : start ≤ next) :
    h ∈ out ↔ next ≤ h ∧ h < endHeight := by
  have hall := List.Perm.mem_iff (a := h) hledger
  have hnodup : (List.range' start (next - start) ++ out).Nodup :=
    hledger.nodup_iff.mpr List.nodup_range'
  have hdisjoint := List.disjoint_of_nodup_append hnodup
  rw [List.mem_append, List.mem_range'_1, List.mem_range'_1] at hall
  constructor
  · intro hmem
    have hrange := hall.mp (.inr hmem)
    have hnot : ¬h ∈ List.range' start (next - start) := fun hlow => hdisjoint hlow hmem
    rw [List.mem_range'_1] at hnot
    omega
  · intro hrange
    rcases hall.mpr (by omega) with hlow | hmem
    · omega
    · exact hmem

theorem nodup (hledger : Ledger start endHeight next out) : out.Nodup :=
  ((hledger.nodup_iff.mpr List.nodup_range').of_append_right)

end Ledger

/-- Replacing one worker exchanges its part of what all workers have. -/
theorem flatMap_set_perm {α β : Type} {l : List α} {i : Nat} {a : α} (f : α → List β)
    (h : l[i]? = some a) :
    ∃ rest, (l.flatMap f).Perm (f a ++ rest) ∧
      ∀ a', ((l.set i a').flatMap f).Perm (f a' ++ rest) := by
  have hsplit : ∀ a', l.set i a' = l.take i ++ a' :: l.drop (i + 1) := fun a' =>
    List.set_eq_take_append_cons_drop.trans (if_pos (List.getElem?_eq_some_iff.mp h).1)
  have hself : l.set i a = l := by
    obtain ⟨hi, rfl⟩ := List.getElem?_eq_some_iff.mp h
    exact List.set_getElem_self hi
  have hperm : ∀ a', ((l.set i a').flatMap f).Perm
      (f a' ++ ((l.take i).flatMap f ++ (l.drop (i + 1)).flatMap f)) := by
    intro a'
    rw [hsplit, List.flatMap_append, List.flatMap_cons]
    exact List.perm_append_comm_assoc _ _ _
  exact ⟨_, by simpa only [hself] using hperm a, hperm⟩

/-! ## Runs without failures -/

/-- A message with a parsed block. -/
def WorkItem.Carries (item : WorkItem) : Prop :=
  ∃ height block, item = .block height block ∧ block.WellShaped

namespace Pipeline

/-- The height in the consumer's hands. -/
def inHand (s : Pipeline) : List Nat :=
  match s.phase with
  | .received item => [item.height]
  | .applying _ => [s.consumer.next]
  | _ => []

/-- The heights that are not applied. -/
def outstanding (s : Pipeline) : List Nat :=
  s.inHand ++ (s.consumer.buffer.keys ++
    (s.channel.map WorkItem.height ++ s.workers.flatMap Worker.remaining))

/-- What holds as long as nothing fails. -/
structure OnTrack (cfg : PipelineConfig) (start : Nat) (s : Pipeline) : Prop where
  tripped : s.tripped = false
  start_le : start ≤ s.consumer.next
  ledger : Ledger start cfg.consume.endHeight s.consumer.next s.outstanding
  applied : s.consumer.applied.map Prod.fst = List.range' start (s.consumer.next - start)
  ascending : ∀ w ∈ s.workers, w.remaining.Pairwise (· < ·)
  healthy : ∀ w ∈ s.workers, w.failed = false
  sent : ∀ item ∈ s.channel, item.Carries
  sending : ∀ item rest, .sending item rest ∈ s.workers → item.Carries
  received : ∀ item, s.phase = .received item → item.Carries
  buffered : ∀ h block, s.consumer.buffer.lookup h = some block → block.WellShaped
  applying : ∀ block, s.phase = .applying block → block.WellShaped
  noSkips : s.consumer.skippedQueue = ∅
  noCache : s.consumer.store.recent = none
  starting : s.phase = .starting → s.consumer.buffer = ∅
  receiving : s.phase = .receiving → s.consumer.buffer.lookup s.consumer.next = none
  returned : ∀ result, s.phase = .returned result → cfg.consume.endHeight ≤ s.consumer.next

section Run

variable {cfg : PipelineConfig} {start : Nat} {s s' : Pipeline} {i : Nat} {w w' : Worker}

/-! ### The workers -/

/-- A worker's move inside a height keeps what it has to send. -/
theorem OnTrack.setWorker (h : OnTrack cfg start s) (hw : s.workers[i]? = some w)
    (hremaining : w'.remaining = w.remaining) (hfailed : w'.failed = false)
    (hsending : ∀ item rest, w' = .sending item rest → item.Carries) :
    OnTrack cfg start { s with workers := s.workers.set i w' } := by
  have hmem := List.mem_of_getElem? hw
  have hout : outstanding { s with workers := s.workers.set i w' } |>.Perm s.outstanding := by
    obtain ⟨rest, hold, hnew⟩ := flatMap_set_perm Worker.remaining hw
    refine .append_left _ (.append_left _ (.append_left _ ?_))
    have hnew' := hnew w'
    rw [hremaining] at hnew'
    exact hnew'.trans hold.symm
  refine { h with
    ledger := h.ledger.congr hout
    ascending := fun v hv => ?_
    healthy := fun v hv => ?_
    sending := fun item rest hv => ?_ }
  · rcases List.mem_or_eq_of_mem_set hv with hold | rfl
    · exact h.ascending v hold
    · rw [hremaining]
      exact h.ascending w hmem
  · rcases List.mem_or_eq_of_mem_set hv with hold | rfl
    · exact h.healthy v hold
    · exact hfailed
  · rcases List.mem_or_eq_of_mem_set hv with hold | heq
    · exact h.sending item rest hold
    · exact hsending item rest heq.symm

theorem remaining_next (rest : List Nat) : (Worker.next rest).remaining = rest := by
  cases rest <;> rfl

/-- A send moves a height from the worker to the channel. -/
theorem OnTrack.send (h : OnTrack cfg start s) {item : WorkItem} {rest : List Nat}
    (hw : s.workers[i]? = some (.sending item rest)) :
    OnTrack cfg start { s with
      workers := s.workers.set i (.next rest), channel := s.channel ++ [item] } := by
  have hmem := List.mem_of_getElem? hw
  have hout : outstanding { s with
      workers := s.workers.set i (.next rest), channel := s.channel ++ [item] } |>.Perm
        s.outstanding := by
    obtain ⟨others, hold, hnew⟩ := flatMap_set_perm Worker.remaining hw
    have hnew' := hnew (.next rest)
    rw [remaining_next] at hnew'
    refine .append_left _ (.append_left _ ?_)
    show ((s.channel ++ [item]).map WorkItem.height ++ _).Perm _
    rw [List.map_append, List.append_assoc]
    refine .append_left _ ?_
    exact (hnew'.append_left _).trans hold.symm
  refine { h with
    ledger := h.ledger.congr hout
    ascending := fun v hv => ?_
    healthy := fun v hv => ?_
    sent := fun sentItem hsent => ?_
    sending := fun item' rest' hv => ?_ }
  · rcases List.mem_or_eq_of_mem_set hv with hold | rfl
    · exact h.ascending v hold
    · rw [remaining_next]
      exact (List.pairwise_cons.mp (h.ascending _ hmem)).2
  · rcases List.mem_or_eq_of_mem_set hv with hold | rfl
    · exact h.healthy v hold
    · cases rest <;> rfl
  · rcases List.mem_append.mp hsent with hold | hlast
    · exact h.sent sentItem hold
    · obtain rfl := List.mem_singleton.mp hlast
      exact h.sending sentItem rest hmem
  · rcases List.mem_or_eq_of_mem_set hv with hold | heq
    · exact h.sending item' rest' hold
    · cases rest <;> cases heq

/-- Heights a worker has still to send are heights of the range. -/
theorem OnTrack.mem_range (h : OnTrack cfg start s) (hw : w ∈ s.workers) {height : Nat}
    (hheight : height ∈ w.remaining) :
    s.consumer.next ≤ height ∧ height < cfg.consume.endHeight := by
  rw [← h.ledger.mem_iff h.start_le]
  exact List.mem_append_right _ (List.mem_append_right _
    (List.mem_append_right _ (List.mem_flatMap.mpr ⟨w, hw, hheight⟩)))

theorem OnTrack.workerStep (h : OnTrack cfg start s)
    (hparse : ∀ height, start ≤ height → height < cfg.consume.endHeight →
      ∃ block, cfg.parse height = some (.block height block) ∧ block.WellShaped)
    {channel : List WorkItem} (hw : s.workers[i]? = some w)
    (hstep : s.workerStep cfg w = some (w', channel)) :
    OnTrack cfg start { s with workers := s.workers.set i w', channel } := by
  have hstart := h.start_le
  have hmem := List.mem_of_getElem? hw
  cases workerStep_move hstep with
  | waits => exact h.setWorker hw rfl rfl fun _ _ heq => by cases heq
  | passes => exact h.setWorker hw rfl rfl fun _ _ heq => by cases heq
  | isNext => exact h.setWorker hw rfl rfl fun _ _ heq => by cases heq
  | retests => exact h.setWorker hw rfl rfl fun _ _ heq => by cases heq
  | stopsOnTrip htripped =>
      rw [h.tripped] at htripped
      contradiction
  | @parses height rest item hitem =>
      have hrange : s.consumer.next ≤ height ∧ height < cfg.consume.endHeight :=
        h.mem_range hmem List.mem_cons_self
      obtain ⟨block, hblock, hshape⟩ := hparse height (by omega) hrange.2
      obtain rfl := Option.some.inj (hitem.symm.trans hblock)
      refine h.setWorker hw rfl rfl fun item rest' heq => ?_
      cases heq
      exact ⟨height, block, rfl, hshape⟩
  | @parseFails height rest hnone =>
      have hrange : s.consumer.next ≤ height ∧ height < cfg.consume.endHeight :=
        h.mem_range hmem List.mem_cons_self
      obtain ⟨block, hblock, hshape⟩ := hparse height (by omega) hrange.2
      rw [hnone] at hblock
      contradiction
  | @sendFails item rest hdropped =>
      -- The consumer returns only when no height is outstanding.
      have hrange : s.consumer.next ≤ item.height ∧ item.height < cfg.consume.endHeight :=
        h.mem_range hmem List.mem_cons_self
      obtain ⟨result, hresult⟩ : ∃ result, s.phase = .returned result := by
        rw [receiverDropped] at hdropped
        split at hdropped
        · exact ⟨_, by assumption⟩
        · contradiction
      have hdone := h.returned result hresult
      omega
  | sends hopen hroom =>
      have hhealthy : s.workers.any Worker.failed = false :=
        List.any_eq_false.mpr fun v hv => by rw [h.healthy v hv]; simp
      rw [afterSend, hhealthy]
      exact h.send hw

/-! ### The consumer -/

theorem OnTrack.createSink (h : OnTrack cfg start s) (hphase : s.phase = .starting)
    (log : List SinkEvent) :
    OnTrack cfg start { s with
      consumer := { s.consumer with sink := log }, phase := .receiving } := by
  have hledger := h.ledger
  rw [outstanding, inHand, hphase] at hledger
  refine { h with
    ledger := hledger
    received := fun _ heq => by cases heq
    applying := fun _ heq => by cases heq
    starting := fun heq => by cases heq
    receiving := fun _ => ?_
    returned := fun _ heq => by cases heq }
  show s.consumer.buffer.lookup s.consumer.next = none
  rw [h.starting hphase, AList.lookup_empty]

theorem OnTrack.receiveItem (h : OnTrack cfg start s) (hphase : s.phase = .receiving)
    {item : WorkItem} {channel : List WorkItem} (hchannel : s.channel = item :: channel) :
    OnTrack cfg start { s with channel, phase := .received item } := by
  have hledger := h.ledger
  rw [outstanding, inHand, hphase, hchannel] at hledger
  refine { h with
    ledger := hledger.congr ?_
    sent := fun item' hmem => h.sent item' (by rw [hchannel]; exact List.mem_cons_of_mem _ hmem)
    received := fun item' heq => ?_
    applying := fun _ heq => by cases heq
    starting := fun heq => by cases heq
    receiving := fun heq => by cases heq
    returned := fun _ heq => by cases heq }
  · show (item.height :: (s.consumer.buffer.keys ++ (channel.map WorkItem.height ++
        s.workers.flatMap Worker.remaining))).Perm (s.consumer.buffer.keys ++
          (item.height :: (channel.map WorkItem.height ++ s.workers.flatMap Worker.remaining)))
    exact List.perm_middle.symm
  · cases heq
    exact h.sent item (by rw [hchannel]; exact List.mem_cons_self)

theorem OnTrack.bufferItem (h : OnTrack cfg start s) {item : WorkItem}
    (hphase : s.phase = .received item) :
    OnTrack cfg start { s with consumer := receive item s.consumer, phase := .skipping } := by
  obtain ⟨height, block, rfl, hshape⟩ := h.received item hphase
  have hledger := h.ledger
  rw [outstanding, inHand, hphase] at hledger
  have hnew : height ∉ s.consumer.buffer.keys := by
    have hnodup := hledger.nodup
    rw [List.singleton_append, List.nodup_cons, List.mem_append] at hnodup
    exact fun hmem => hnodup.1 (.inl hmem)
  refine { h with
    ledger := hledger.congr ?_
    received := fun _ heq => by cases heq
    buffered := fun g b hlookup => ?_
    applying := fun _ heq => by cases heq
    starting := fun heq => by cases heq
    receiving := fun heq => by cases heq
    returned := fun _ heq => by cases heq }
  · show ([] ++ ((s.consumer.buffer.insert height block).keys ++ _)).Perm _
    rw [AList.keys_insert, List.erase_of_not_mem hnew]
    exact .refl _
  · by_cases hg : g = height
    · subst hg
      rw [show (receive (.block g block) s.consumer).buffer = s.consumer.buffer.insert g block
        from rfl, AList.lookup_insert] at hlookup
      cases hlookup
      exact hshape
    · rw [show (receive (.block height block) s.consumer).buffer =
        s.consumer.buffer.insert height block from rfl, AList.lookup_insert_ne hg] at hlookup
      exact h.buffered g b hlookup

theorem OnTrack.skipNone (h : OnTrack cfg start s) (hphase : s.phase = .skipping) :
    OnTrack cfg start { s with phase := .draining } := by
  have hledger := h.ledger
  rw [outstanding, inHand, hphase] at hledger
  exact { h with
    ledger := hledger
    received := fun _ heq => by cases heq
    applying := fun _ heq => by cases heq
    starting := fun heq => by cases heq
    receiving := fun heq => by cases heq
    returned := fun _ heq => by cases heq }

theorem OnTrack.drainNone (h : OnTrack cfg start s) (hphase : s.phase = .draining)
    (hlookup : s.consumer.buffer.lookup s.consumer.next = none) :
    OnTrack cfg start { s with phase := .receiving } := by
  have hledger := h.ledger
  rw [outstanding, inHand, hphase] at hledger
  exact { h with
    ledger := hledger
    received := fun _ heq => by cases heq
    applying := fun _ heq => by cases heq
    starting := fun heq => by cases heq
    receiving := fun _ => hlookup
    returned := fun _ heq => by cases heq }

theorem OnTrack.takeBlock (h : OnTrack cfg start s) (hphase : s.phase = .draining)
    {block : FullBlock} (hlookup : s.consumer.buffer.lookup s.consumer.next = some block)
    (depth : Nat) :
    OnTrack cfg start { s with
      consumer := { s.consumer with
        buffer := s.consumer.buffer.erase s.consumer.next, reorderDepth := depth }
      phase := .applying block } := by
  have hledger := h.ledger
  rw [outstanding, inHand, hphase] at hledger
  have hmem : s.consumer.next ∈ s.consumer.buffer.keys := KeyValue.mem_keys_of_lookup hlookup
  refine { h with
    ledger := hledger.congr ?_
    received := fun _ heq => by cases heq
    buffered := fun g b hg => ?_
    applying := fun b heq => ?_
    starting := fun heq => by cases heq
    receiving := fun heq => by cases heq
    returned := fun _ heq => by cases heq }
  · show (s.consumer.next :: ((s.consumer.buffer.erase s.consumer.next).keys ++ _)).Perm _
    rw [AList.keys_erase, ← List.cons_append]
    exact (List.perm_cons_erase hmem).symm.append_right _
  · by_cases hnext : g = s.consumer.next
    · subst hnext
      rw [AList.lookup_erase] at hg
      contradiction
    · rw [AList.lookup_erase_ne hnext] at hg
      exact h.buffered g b hg
  · cases heq
    exact h.buffered _ _ hlookup

/-- The consumer behind a height it has applied. -/
theorem OnTrack.passBlock (h : OnTrack cfg start s) {block : FullBlock}
    (hphase : s.phase = .applying block) {c : Consumer} (hnext : c.next = s.consumer.next + 1)
    (hbuffer : c.buffer = s.consumer.buffer) (hskipped : c.skippedQueue = s.consumer.skippedQueue)
    (hrecent : c.store.recent = none)
    (happlied : c.applied.map Prod.fst = s.consumer.applied.map Prod.fst ++ [s.consumer.next])
    {phase : ConsumerPhase} (hgoes : phase = .draining ∨
      ∃ result, phase = .returned result ∧ cfg.consume.endHeight ≤ s.consumer.next + 1) :
    OnTrack cfg start { s with consumer := c, phase } := by
  have hstart := h.start_le
  have hledger : Ledger start cfg.consume.endHeight s.consumer.next
      (s.consumer.next :: (s.consumer.buffer.keys ++ (s.channel.map WorkItem.height ++
        s.workers.flatMap Worker.remaining))) := by
    have hold := h.ledger
    rw [outstanding, inHand, hphase] at hold
    exact hold
  have hempty : inHand { s with consumer := c, phase } = [] := by
    rcases hgoes with rfl | ⟨result, rfl, -⟩ <;> rfl
  refine { h with
    start_le := ?_
    ledger := ?_
    applied := ?_
    received := fun item heq => ?_
    buffered := fun g b hlookup => h.buffered g b (hbuffer ▸ hlookup)
    applying := fun b heq => ?_
    noSkips := by rw [hskipped, h.noSkips]
    noCache := hrecent
    starting := fun heq => ?_
    receiving := fun heq => ?_
    returned := fun result heq => ?_ }
  · rw [hnext]
    omega
  · rw [outstanding, hempty, hnext, hbuffer]
    exact hledger.pass hstart
  · rw [happlied, hnext, h.applied, Nat.sub_add_comm hstart, List.range'_concat]
    congr 2
    omega
  · rcases hgoes with rfl | ⟨_, rfl, -⟩ <;> cases heq
  · rcases hgoes with rfl | ⟨_, rfl, -⟩ <;> cases heq
  · rcases hgoes with rfl | ⟨_, rfl, -⟩ <;> cases heq
  · rcases hgoes with rfl | ⟨_, rfl, -⟩ <;> cases heq
  · rcases hgoes with rfl | ⟨_, -, hend⟩
    · cases heq
    · rw [hnext]
      exact hend

/-- Applying a parsed block succeeds, and the consumer stands at the next height. -/
theorem OnTrack.applyBlock (h : OnTrack cfg start s) (hfaults : cfg.consume.faults = .none)
    {block : FullBlock} (hphase : s.phase = .applying block)
    (hstep : s.consumerStep cfg = some s') : OnTrack cfg start s' := by
  obtain ⟨log, hrotate, -⟩ := rotatePart_ok hfaults s.consumer
  have hrocks : cfg.consume.faults.rocks s.consumer.next = .none := by rw [hfaults]; rfl
  have hpush : cfg.consume.faults.push s.consumer.next = false := by rw [hfaults]; rfl
  obtain ⟨res, st, reads, -, -, happly⟩ := applyFull_of_shape (cfg.consume.orders s.consumer.next)
    (UInt32.ofNat s.consumer.next) h.noCache (h.applying block hphase)
  rw [UtxoStore.applyFull] at happly
  unfold consumerStep at hstep
  simp only [hphase, hrotate, applyAndPush, hrocks, happly, hpush, Bool.false_eq_true, if_false,
    advance_eq hfaults, Option.some.injEq] at hstep
  subst hstep
  rw [finishOrGo]
  split
  · rename_i hend
    refine h.passBlock hphase ?_ ?_ ?_ ?_ ?_ (.inr ⟨_, rfl, hend⟩)
    all_goals first | rfl | exact h.noCache | exact List.map_append
  · refine h.passBlock hphase ?_ ?_ ?_ ?_ ?_ (.inl rfl)
    all_goals first | rfl | exact h.noCache | exact List.map_append

/-- When all workers have returned and the channel is empty, everything is applied. -/
theorem OnTrack.closed (h : OnTrack cfg start s) (hphase : s.phase = .receiving)
    (hchannel : s.channel = []) (hreturned : s.workers.all Worker.isReturned = true) :
    cfg.consume.endHeight ≤ s.consumer.next := by
  by_contra hlt
  have hmem : s.consumer.next ∈ s.outstanding :=
    (h.ledger.mem_iff h.start_le).mpr ⟨le_rfl, by omega⟩
  have hworkers : s.workers.flatMap Worker.remaining = [] := by
    rw [List.flatMap_eq_nil_iff]
    intro w hw
    have hw := List.all_eq_true.mp hreturned w hw
    cases w <;> first | rfl | cases hw
  rw [outstanding, inHand, hphase, hchannel, hworkers] at hmem
  simp only [List.map_nil, List.nil_append, List.append_nil] at hmem
  have hkey : s.consumer.next ∈ s.consumer.buffer := AList.mem_keys.mpr hmem
  rw [← AList.lookup_isSome, h.receiving hphase] at hkey
  cases hkey

theorem OnTrack.consumerStep (h : OnTrack cfg start s) (hfaults : cfg.consume.faults = .none)
    (hstep : s.consumerStep cfg = some s') : OnTrack cfg start s' := by
  have hfinish : cfg.consume.faults.finish s.consumer.partId = false := by rw [hfaults]; rfl
  cases consumerStep_move hstep with
  | createFails hphase hcreate =>
      rw [hfaults] at hcreate
      contradiction
  | creates hphase => exact h.createSink hphase _
  | receives hphase hchannel => exact h.receiveItem hphase hchannel
  | closes hphase hchannel hreturned =>
      have hdone := h.closed hphase hchannel hreturned
      have hledger := h.ledger
      rw [outstanding, inHand, hphase] at hledger
      simp only [closeChannel, finishSink, hfinish, Bool.false_eq_true, if_false]
      rw [if_neg (by omega)]
      exact { h with
        ledger := hledger
        received := fun _ heq => by cases heq
        applying := fun _ heq => by cases heq
        starting := fun heq => by cases heq
        receiving := fun heq => by cases heq
        returned := fun _ _ => hdone }
  | stores hphase => exact h.bufferItem hphase
  | skips hphase hmem =>
      rw [h.noSkips] at hmem
      exact absurd hmem (Finset.notMem_empty _)
  | drains hphase => exact h.skipNone hphase
  | waits hphase hlookup => exact h.drainNone hphase hlookup
  | stopsOnTrip hphase hlookup htripped =>
      rw [h.tripped] at htripped
      contradiction
  | takes hphase hlookup => exact h.takeBlock hphase hlookup _
  | applies hphase hrotate => exact h.applyBlock hfaults hphase hstep
  | rotateFails hphase hrotate => exact h.applyBlock hfaults hphase hstep

theorem OnTrack.moves (h : OnTrack cfg start s) (hfaults : cfg.consume.faults = .none)
    (hparse : ∀ height, start ≤ height → height < cfg.consume.endHeight →
      ∃ block, cfg.parse height = some (.block height block) ∧ block.WellShaped)
    (hmoves : Moves cfg s s') : OnTrack cfg start s' := by
  obtain ⟨actor, hactor, hstep⟩ := hmoves
  cases actor with
  | consumer => exact h.consumerStep hfaults hstep
  | worker i =>
      obtain ⟨w, w', channel, hw, hworker, rfl⟩ := step_worker hstep
      exact h.workerStep hparse hw hworker
  | watchdog => contradiction

end Run

theorem OnTrack.initial (cfg : PipelineConfig) {start : Nat} {store : UtxoStore}
    {assigned : List (List Nat)} (hrecent : store.recent = none)
    (hassigned : assigned.flatten.Perm
      (List.range' start (cfg.consume.endHeight - start)))
    (hascending : ∀ heights ∈ assigned, heights.Pairwise (· < ·)) :
    OnTrack cfg start (initial cfg start store assigned) := by
  have hremaining : (assigned.map Worker.next).flatMap Worker.remaining = assigned.flatten := by
    rw [List.flatMap_map]
    simp only [remaining_next, List.flatMap_id']
  constructor
  case tripped => rfl
  case start_le => exact le_rfl
  case ledger =>
    show (List.range' start (start - start) ++ ([] ++ ([] ++ ([] ++
      (assigned.map Worker.next).flatMap Worker.remaining)))).Perm _
    rw [Nat.sub_self, hremaining]
    exact hassigned
  case applied =>
    show [] = List.range' start (start - start)
    rw [Nat.sub_self]
    rfl
  case ascending =>
    intro w hw
    obtain ⟨heights, hmem, rfl⟩ := List.mem_map.mp hw
    rw [remaining_next]
    exact hascending heights hmem
  case healthy =>
    intro w hw
    obtain ⟨heights, hmem, rfl⟩ := List.mem_map.mp hw
    cases heights <;> rfl
  case sent => intro item hitem; cases hitem
  case sending =>
    intro item rest hmem
    obtain ⟨heights, -, heq⟩ := List.mem_map.mp hmem
    cases heights <;> cases heq
  case received => intro item heq; cases heq
  case buffered =>
    intro height block hlookup
    rw [show (Pipeline.initial cfg start store assigned).consumer.buffer = ∅ from rfl,
      AList.lookup_empty] at hlookup
    contradiction
  case applying => intro block heq; cases heq
  case noSkips => rfl
  case noCache => exact hrecent
  case starting => intro _; rfl
  case receiving => intro heq; cases heq
  case returned => intro result heq; cases heq

/-! ## Progress -/

/-- Testing its loop condition as things stand leaves the worker in the loop. -/
def RetestsInVain (cfg : PipelineConfig) (s : Pipeline) : Worker → Prop
  | .testing height _ =>
      cfg.reorderHigh < s.consumer.reorderDepth ∧ s.consumer.next ≠ height
  | .comparing height _ => s.consumer.next ≠ height
  | _ => False

/-- A step other than a worker's test in vain. -/
def CanProgress (cfg : PipelineConfig) (s : Pipeline) : Prop :=
  (∃ s', s.step cfg .consumer = some s') ∨
    ∃ i w s', s.workers[i]? = some w ∧ s.step cfg (.worker i) = some s' ∧ ¬s.RetestsInVain cfg w

/-- The consumer can only wait for a message. -/
theorem consumerStep_of_not_receiving {cfg : PipelineConfig} {s : Pipeline}
    (hreceiving : s.phase ≠ .receiving) (hreturned : ∀ result, s.phase ≠ .returned result) :
    ∃ s', s.consumerStep cfg = some s' := by
  unfold consumerStep
  cases hphase : s.phase with
  | starting => simp only; split <;> exact ⟨_, rfl⟩
  | receiving => exact absurd hphase hreceiving
  | received item => exact ⟨_, rfl⟩
  | skipping => simp only; split <;> exact ⟨_, rfl⟩
  | draining =>
      simp only
      split
      · exact ⟨_, rfl⟩
      · split <;> exact ⟨_, rfl⟩
  | applying block => simp only; split <;> exact ⟨_, rfl⟩
  | returned result => exact absurd hphase (hreturned result)

/-- The worker at the height the consumer waits for can go on. -/
theorem canProgress_of_holder {cfg : PipelineConfig} {s : Pipeline} {i : Nat} {w : Worker}
    (hcapacity : 1 ≤ cfg.channelDepth) (hchannel : s.channel = [])
    (hw : s.workers[i]? = some w) {rest : List Nat}
    (hholds : w.remaining = s.consumer.next :: rest) : s.CanProgress cfg := by
  have hcan : ∀ w' channel, s.workerStep cfg w = some (w', channel) →
      ¬s.RetestsInVain cfg w → s.CanProgress cfg := fun w' channel hstep heffect =>
    .inr ⟨i, w, _, hw, step_worker_eq hw hstep, heffect⟩
  cases w with
  | testing height rest =>
      obtain rfl : height = s.consumer.next := (List.cons.inj hholds).1
      have heffect : ¬s.RetestsInVain cfg (.testing s.consumer.next rest) := fun h => h.2 rfl
      by_cases hhigh : cfg.reorderHigh < s.consumer.reorderDepth
      · exact hcan _ _ (if_pos hhigh) heffect
      · exact hcan _ _ (if_neg hhigh) heffect
  | comparing height rest =>
      obtain rfl : height = s.consumer.next := (List.cons.inj hholds).1
      exact hcan _ _ (if_pos rfl) fun h => h rfl
  | parsing height rest =>
      cases hparse : cfg.parse height with
      | none => exact hcan (.returned false) s.channel (by rw [workerStep, hparse]) id
      | some item => exact hcan (.sending item rest) s.channel (by rw [workerStep, hparse]) id
  | sending item rest =>
      by_cases hdropped : s.receiverDropped = true
      · exact hcan _ _ (if_pos hdropped) id
      · -- The channel has room: it is empty.
        have hroom : s.channel.length < cfg.channelDepth := by
          rw [hchannel]
          exact hcapacity
        refine hcan (s.afterSend rest) (s.channel ++ [item]) ?_ id
        rw [workerStep, if_neg hdropped, if_pos hroom]
  | returned ok => cases hholds

theorem OnTrack.canProgress {cfg : PipelineConfig} {start : Nat} {s : Pipeline}
    (h : OnTrack cfg start s) (hcapacity : 1 ≤ cfg.channelDepth)
    (hlt : s.consumer.next < cfg.consume.endHeight) : s.CanProgress cfg := by
  by_cases hphase : s.phase = .receiving
  · cases hchannel : s.channel with
    | cons item channel =>
        left
        refine ⟨{ s with channel, phase := .received item }, ?_⟩
        simp only [step, Pipeline.consumerStep, hphase, hchannel]
    | nil =>
        -- The height the consumer waits for is nowhere but with a worker.
        have hmem : s.consumer.next ∈ s.outstanding :=
          (h.ledger.mem_iff h.start_le).mpr ⟨le_rfl, hlt⟩
        have hnotKey : s.consumer.next ∉ s.consumer.buffer.keys := fun hkey => by
          have hsome := AList.lookup_isSome.mpr (AList.mem_keys.mpr hkey)
          rw [h.receiving hphase] at hsome
          cases hsome
        rw [outstanding, inHand, hphase, hchannel] at hmem
        simp only [List.map_nil, List.nil_append, List.mem_append, hnotKey, false_or] at hmem
        obtain ⟨w, hw, hheight⟩ := List.mem_flatMap.mp hmem
        obtain ⟨i, hi⟩ := List.mem_iff_getElem?.mp hw
        -- It comes first there: what a worker has before it would be applied already.
        obtain ⟨first, rest, hremaining⟩ := List.exists_cons_of_ne_nil (List.ne_nil_of_mem hheight)
        have hfirst : first = s.consumer.next := by
          rw [hremaining] at hheight
          rcases List.mem_cons.mp hheight with heq | hlater
          · exact heq.symm
          · have hsorted := h.ascending w hw
            rw [hremaining, List.pairwise_cons] at hsorted
            have hbelow := hsorted.1 _ hlater
            have hrange : s.consumer.next ≤ first ∧ first < cfg.consume.endHeight :=
              h.mem_range hw (by rw [hremaining]; simp)
            omega
        rw [hfirst] at hremaining
        exact canProgress_of_holder hcapacity hchannel hi hremaining
  · left
    refine consumerStep_of_not_receiving hphase fun result hreturned => ?_
    have hdone := h.returned result hreturned
    omega

/-- For every number of workers, channel capacity, watermark and assignment of the
heights in ascending order, when every height parses and nothing fails, every state of
every interleaving in which some height is not applied yet has an enabled step other
than a worker testing its loop condition in vain. -/
theorem backpressure_progress (cfg : PipelineConfig) (D : Digests) (start : Nat) (db : Db)
    (assigned : List (List Nat)) (hcapacity : 1 ≤ cfg.channelDepth)
    (hfaults : cfg.consume.faults = .none)
    (hparse : ∀ height, start ≤ height → height < cfg.consume.endHeight →
      ∃ payload hash header block,
        parseBlockFull D payload (UInt32.ofNat height) hash header = .ok block ∧
        cfg.parse height = some (.block height block))
    (hassigned : assigned.flatten.Perm (List.range' start (cfg.consume.endHeight - start)))
    (hascending : ∀ heights ∈ assigned, heights.Pairwise (· < ·))
    {s : Pipeline} (hruns : Runs cfg (initial cfg start (.openBulk db) assigned) s)
    {height : Nat} (hstart : start ≤ height) (hend : height < cfg.consume.endHeight)
    (hnotApplied : height ∉ s.consumer.applied.map Prod.fst) : s.CanProgress cfg := by
  have hblocks : ∀ height, start ≤ height → height < cfg.consume.endHeight →
      ∃ block, cfg.parse height = some (.block height block) ∧ block.WellShaped := by
    intro height hlow hhigh
    obtain ⟨payload, hash, header, block, hblock, hitem⟩ := hparse height hlow hhigh
    exact ⟨block, hitem, (parseBlockFull_shape hblock).1⟩
  have htrack : OnTrack cfg start s := by
    clear hnotApplied
    induction hruns with
    | refl => exact OnTrack.initial cfg rfl hassigned hascending
    | tail _ hmoves ih => exact ih.moves hfaults hblocks hmoves
  apply htrack.canProgress hcapacity
  by_contra hdone
  apply hnotApplied
  rw [htrack.applied, List.mem_range'_1]
  omega

/-! Three blocks, two workers, no room above the watermark and one place in the channel:
height 1 is in the reorder buffer, and its worker has returned. -/

def samplePipeline : PipelineConfig where
  consume := sampleConfig 3
  reorderHigh := 0
  channelDepth := 1
  parse height := (oldChain[height]?.bind fun raw =>
    (parseAt treeDigests raw height).toOption).map (.block height)

theorem samplePipeline_parse (height : Nat) (hlt : height < 3) :
    ∃ payload hash header block,
      parseBlockFull treeDigests payload (UInt32.ofNat height) hash header = .ok block ∧
      samplePipeline.parse height = some (.block height block) := by
  obtain ⟨raw, hraw⟩ : ∃ raw, oldChain[height]? = some raw :=
    ⟨_, List.getElem?_eq_getElem (show height < oldChain.length from hlt)⟩
  obtain ⟨block, hparse, -⟩ := oldChain_valid.valid height raw hraw
  refine ⟨raw, _, _, block, hparse, ?_⟩
  show (oldChain[height]?.bind fun raw =>
    (parseAt treeDigests raw height).toOption).map (WorkItem.block height) = _
  rw [hraw, Option.bind_some, hparse]
  rfl

theorem backpressure_progress_sample :
    ∃ s, runSchedule samplePipeline
        (.consumer :: List.replicate 3 (.worker 1) ++ List.replicate 4 .consumer)
        (initial samplePipeline 0 (.openBulk sampleDb) [[0, 2], [1]]) = some s ∧
      s.consumer.reorderDepth = 1 ∧ s.CanProgress samplePipeline := by
  have hcheck : ((runSchedule samplePipeline
      (.consumer :: List.replicate 3 (.worker 1) ++ List.replicate 4 .consumer)
      (initial samplePipeline 0 (.openBulk sampleDb) [[0, 2], [1]])).any fun s =>
        s.consumer.reorderDepth == 1 && s.consumer.applied.isEmpty) = true := by
    decide +kernel
  obtain ⟨s, hs, hfacts⟩ := (Option.any_eq_true _ _).mp hcheck
  simp only [Bool.and_eq_true, beq_iff_eq, List.isEmpty_iff] at hfacts
  refine ⟨s, hs, hfacts.1, ?_⟩
  refine backpressure_progress samplePipeline treeDigests 0 sampleDb [[0, 2], [1]] (by decide) rfl
    (fun height _ hlt => samplePipeline_parse height hlt) (by decide) (by decide)
    (runs_of_runSchedule (by decide) hs) (le_refl 0) (by decide) ?_
  rw [hfacts.2]
  exact List.not_mem_nil

end Pipeline

end Bidx
