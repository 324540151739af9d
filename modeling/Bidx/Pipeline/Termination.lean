import Mathlib.Algebra.BigOperators.Ring.List
import Bidx.Lib.Ranking
import Bidx.Pipeline.Sequential

/-!
# Every parse comes to its end

In a run without failures every step but a worker's test in vain brings the run nearer
to its end: a height goes from its worker through the channel and the reorder buffer to
the store, and does not come back.  The rank counts the steps a height still has before
it, so the number of such steps is bounded before the run starts.  Where nothing but
tests in vain is enabled everyone has returned, and what the run has left is the output
of the plain loop over the heights, the same for every interleaving.
-/

namespace Bidx

open KeyValue Ranking

/-! ## The rank -/

/-- What is left to do for a worker's heights, when the consumer waits for `next`.  The
two tests of a worker that waits in vain follow each other, so they count the same. -/
def Worker.rank (next : Nat) : Worker → Nat
  | .testing _ rest => 10 * rest.length + 10
  | .comparing height rest => 10 * rest.length + if next = height then 9 else 10
  | .parsing _ rest => 10 * rest.length + 8
  | .sending _ rest => 10 * rest.length + 7
  | .returned _ => 0

theorem Worker.rank_next (n : Nat) (rest : List Nat) :
    (Worker.next rest).rank n = 10 * rest.length := by
  cases rest <;> rfl

/-- Past a height the worker does not hold, its rank does not grow. -/
theorem Worker.rank_succ_le {n : Nat} {w : Worker} (h : n ∉ w.remaining) :
    w.rank (n + 1) ≤ w.rank n := by
  cases w with
  | comparing height rest =>
      have hne : n ≠ height := fun heq => h (heq ▸ List.mem_cons_self)
      simp only [rank, if_neg hne]
      split <;> omega
  | _ => exact le_rfl

/-- What is left to do in a phase, for the message or block in hand. -/
def ConsumerPhase.rank : ConsumerPhase → Nat
  | .starting => 2
  | .receiving => 1
  | .received _ => 6
  | .skipping => 3
  | .draining => 2
  | .applying _ => 3
  | .returned _ => 0

theorem sum_map_set {α : Type} (f : α → Nat) {l : List α} {i : Nat} {a : α}
    (h : l[i]? = some a) (a' : α) :
    ((l.set i a').map f).sum + f a = (l.map f).sum + f a' := by
  induction l generalizing i with
  | nil => contradiction
  | cons b l ih =>
      cases i with
      | zero =>
          obtain rfl : b = a := Option.some.inj h
          simp only [List.set_cons_zero, List.map_cons, List.sum_cons]
          omega
      | succ i =>
          have hl := ih h
          simp only [List.set_cons_succ, List.map_cons, List.sum_cons]
          omega

namespace Pipeline

/-- The steps the pipeline has still before it. -/
def rank (s : Pipeline) : Nat :=
  s.phase.rank + 2 * s.consumer.buffer.keys.length + 6 * s.channel.length +
    (s.workers.map (Worker.rank s.consumer.next)).sum

/-- A step of a worker or the consumer. -/
def Acts (cfg : PipelineConfig) (actor : Actor) (s s' : Pipeline) : Prop :=
  actor ≠ .watchdog ∧ s.step cfg actor = some s'

/-- A worker about to test its loop condition in vain. -/
def Idles (cfg : PipelineConfig) (actor : Actor) (s : Pipeline) : Prop :=
  ∃ i w, actor = .worker i ∧ s.workers[i]? = some w ∧ s.RetestsInVain cfg w

/-- A run in which `n` steps are not tests in vain. -/
abbrev CountedRun (cfg : PipelineConfig) : Nat → Pipeline → Pipeline → Prop :=
  Counted (Acts cfg) (Idles cfg)

theorem CountedRun.runs {cfg : PipelineConfig} {n : Nat} {s s' : Pipeline}
    (h : CountedRun cfg n s s') : Runs cfg s s' := by
  induction h with
  | refl => exact .refl
  | idle _ _ hstep ih => exact ih.tail ⟨_, hstep⟩
  | moves _ _ hstep ih => exact ih.tail ⟨_, hstep⟩

/-- The steps of a schedule, counted. -/
theorem countedRun_of_runSchedule {cfg : PipelineConfig} {actors : List Actor} {s s' : Pipeline}
    (hactors : .watchdog ∉ actors) (h : runSchedule cfg actors s = some s') :
    ∃ n, CountedRun cfg n s s' := by
  induction actors generalizing s with
  | nil =>
      obtain rfl := Option.some.inj h
      exact ⟨0, .refl s⟩
  | cons actor actors ih =>
      rw [List.mem_cons, not_or] at hactors
      rw [runSchedule] at h
      split at h
      · contradiction
      · rename_i s₁ hstep
        obtain ⟨n, hrun⟩ := ih hactors.2 h
        have hacts : Acts cfg actor s s₁ := ⟨Ne.symm hactors.1, hstep⟩
        by_cases hidle : Idles cfg actor s
        · exact ⟨0 + n, ((Counted.refl s).idle hidle hacts).trans hrun⟩
        · exact ⟨0 + 1 + n, ((Counted.refl s).moves hidle hacts).trans hrun⟩

/-! ## What a step does to the rank -/

section Rank

variable {cfg : PipelineConfig} {start : Nat} {s s' : Pipeline} {i : Nat} {w w' : Worker}
  {channel : List WorkItem}

/-- The rank around a step of a worker. -/
theorem rank_setWorker (w' : Worker) (channel : List WorkItem) (hw : s.workers[i]? = some w) :
    rank { s with workers := s.workers.set i w', channel } + w.rank s.consumer.next +
        6 * s.channel.length =
      s.rank + w'.rank s.consumer.next + 6 * channel.length := by
  have hsum := sum_map_set (Worker.rank s.consumer.next) hw w'
  simp only [rank]
  omega

/-- A test in vain leaves the rank, and every other step of a worker lowers it. -/
theorem OnTrack.rank_workerStep (h : OnTrack cfg start s) (hw : s.workers[i]? = some w)
    (hstep : s.workerStep cfg w = some (w', channel)) :
    let s' : Pipeline := { s with workers := s.workers.set i w', channel }
    (s.RetestsInVain cfg w → s'.rank ≤ s.rank) ∧ (¬s.RetestsInVain cfg w → s'.rank < s.rank) := by
  have hrank := rank_setWorker w' channel hw
  cases workerStep_move hstep with
  | @waits height rest hhigh =>
      simp only [Worker.rank] at hrank
      refine ⟨fun hvain => ?_, fun heffect => ?_⟩
      · rw [if_neg hvain.2] at hrank
        omega
      · have hnext : s.consumer.next = height := by
          by_contra hne
          exact heffect ⟨hhigh, hne⟩
        rw [if_pos hnext] at hrank
        omega
  | passes hlow =>
      simp only [Worker.rank] at hrank
      refine ⟨fun hvain => ?_, fun _ => by omega⟩
      have := hvain.1
      omega
  | isNext hnext =>
      simp only [Worker.rank, if_pos hnext] at hrank
      exact ⟨fun hvain => absurd hnext hvain, fun _ => by omega⟩
  | stopsOnTrip htripped =>
      rw [h.tripped] at htripped
      contradiction
  | retests hnext =>
      simp only [Worker.rank, if_neg hnext] at hrank
      exact ⟨fun _ => by omega, fun heffect => absurd hnext heffect⟩
  | parses =>
      simp only [Worker.rank] at hrank
      exact ⟨False.elim, fun _ => by omega⟩
  | parseFails =>
      simp only [Worker.rank] at hrank
      exact ⟨False.elim, fun _ => by omega⟩
  | sendFails =>
      simp only [Worker.rank] at hrank
      exact ⟨False.elim, fun _ => by omega⟩
  | @sends item rest =>
      refine ⟨False.elim, fun _ => ?_⟩
      have hafter : (s.afterSend rest).rank s.consumer.next ≤ 10 * rest.length := by
        rw [afterSend]
        split
        · exact Nat.zero_le _
        · rw [Worker.rank_next]
      have hbefore : (Worker.sending item rest).rank s.consumer.next = 10 * rest.length + 7 := rfl
      rw [List.length_append, List.length_singleton, hbefore] at hrank
      omega

/-- The height in the consumer's hands is with no worker. -/
theorem OnTrack.next_notMem (h : OnTrack cfg start s) {block : FullBlock}
    (hphase : s.phase = .applying block) (hw : w ∈ s.workers) :
    s.consumer.next ∉ w.remaining := by
  have hnodup := h.ledger.nodup
  rw [outstanding, inHand, hphase, List.singleton_append, List.nodup_cons] at hnodup
  intro hmem
  exact hnodup.1 (List.mem_append_right _ (List.mem_append_right _
    (List.mem_flatMap.mpr ⟨w, hw, hmem⟩)))

theorem sum_rank_succ_le {ws : List Worker} {n : Nat} (h : ∀ w ∈ ws, n ∉ w.remaining) :
    (ws.map (Worker.rank (n + 1))).sum ≤ (ws.map (Worker.rank n)).sum :=
  List.sum_le_sum fun w hw => Worker.rank_succ_le (h w hw)

/-- Applying a block: the consumer is behind it and takes no other. -/
theorem OnTrack.rank_applies (h : OnTrack cfg start s) (hfaults : cfg.consume.faults = .none)
    {block : FullBlock} (hphase : s.phase = .applying block) {c : Consumer}
    (hrotate : rotatePart cfg.consume s.consumer = .running c) :
    (s.resume .draining (applyAndPush cfg.consume block c)).rank < s.rank := by
  have hrotated := rotatePart_sameBuffer cfg.consume s.consumer
  have hbuffer := (applyAndPush_sameBuffer cfg.consume block c).buffer
  rw [hrotate] at hrotated
  have hsame : c.buffer = s.consumer.buffer := hrotated.1.buffer
  have hnext : c.next = s.consumer.next := hrotated.2
  have hsum := sum_rank_succ_le fun w hw => h.next_notMem hphase hw
  have hgoes : ∃ phase c', s.resume .draining (applyAndPush cfg.consume block c) =
      { s with consumer := c', phase } ∧ phase.rank ≤ 2 ∧ c'.buffer = s.consumer.buffer ∧
        (c'.next = s.consumer.next ∨ c'.next = s.consumer.next + 1) := by
    have hpast : (applyAndPush cfg.consume block c).consumer.next = c.next ∨
        (applyAndPush cfg.consume block c).consumer.next = c.next + 1 := by
      unfold applyAndPush
      split
      · exact .inl rfl
      · dsimp only
        split
        · exact .inl rfl
        · rw [advance_eq hfaults, finishOrGo]
          split <;> exact .inr rfl
    rw [hnext] at hpast
    cases happly : applyAndPush cfg.consume block c with
    | running c' =>
        rw [happly] at hbuffer hpast
        exact ⟨.draining, c', rfl, le_rfl, hbuffer.trans hsame, hpast⟩
    | returned c' result =>
        rw [happly] at hbuffer hpast
        exact ⟨.returned result, c', rfl, Nat.zero_le _, hbuffer.trans hsame, hpast⟩
  obtain ⟨phase, c', heq, hrank, hkept, hpast⟩ := hgoes
  have hbefore : (ConsumerPhase.applying block).rank = 3 := rfl
  rw [heq]
  simp only [rank, hphase, hkept, hbefore]
  rcases hpast with hpast | hpast
  · rw [hpast]
    omega
  · rw [hpast]
    omega

theorem OnTrack.rank_consumerStep (h : OnTrack cfg start s)
    (hfaults : cfg.consume.faults = .none) (hstep : s.consumerStep cfg = some s') :
    s'.rank < s.rank := by
  cases consumerStep_move hstep with
  | createFails hphase hcreate =>
      rw [hfaults] at hcreate
      contradiction
  | creates hphase =>
      simp only [rank, hphase, ConsumerPhase.rank]
      omega
  | receives hphase hchannel =>
      simp only [rank, hphase, hchannel, ConsumerPhase.rank, List.length_cons]
      omega
  | closes hphase =>
      have hfinish : cfg.consume.faults.finish s.consumer.partId = false := by rw [hfaults]; rfl
      simp only [closeChannel, finishSink, hfinish, Bool.false_eq_true, if_false]
      split
      · simp only [rank, hphase, ConsumerPhase.rank]
        omega
      · simp only [rank, hphase, ConsumerPhase.rank]
        omega
  | @stores item hphase =>
      obtain ⟨height, block, rfl, -⟩ := h.received item hphase
      have hlength : (s.consumer.buffer.insert height block).keys.length ≤
          s.consumer.buffer.keys.length + 1 := by
        rw [AList.keys_insert, List.length_cons]
        exact Nat.succ_le_succ (List.erase_sublist.length_le)
      simp only [rank, hphase, receive, ConsumerPhase.rank]
      omega
  | skips hphase hmem =>
      rw [h.noSkips] at hmem
      exact absurd hmem (Finset.notMem_empty _)
  | drains hphase =>
      simp only [rank, hphase, ConsumerPhase.rank]
      omega
  | waits hphase =>
      simp only [rank, hphase, ConsumerPhase.rank]
      omega
  | stopsOnTrip hphase hlookup htripped =>
      rw [h.tripped] at htripped
      contradiction
  | takes hphase hlookup =>
      have hmem : s.consumer.next ∈ s.consumer.buffer.keys := mem_keys_of_lookup hlookup
      have hpos := List.length_pos_of_mem hmem
      have hlength : (s.consumer.buffer.erase s.consumer.next).keys.length =
          s.consumer.buffer.keys.length - 1 := by
        rw [AList.keys_erase, List.length_erase_of_mem hmem]
      simp only [rank, hphase, hlength, ConsumerPhase.rank]
      omega
  | applies hphase hrotate => exact h.rank_applies hfaults hphase hrotate
  | rotateFails hphase hrotate =>
      obtain ⟨log, hrunning, -⟩ := rotatePart_ok hfaults s.consumer
      rw [hrunning] at hrotate
      contradiction

end Rank

/-- The rank and the invariant fit the steps. -/
theorem ranked {cfg : PipelineConfig} {start : Nat} (hfaults : cfg.consume.faults = .none)
    (hparse : ∀ height, start ≤ height → height < cfg.consume.endHeight →
      ∃ block, cfg.parse height = some (.block height block) ∧ block.WellShaped) :
    Ranked (Acts cfg) (Idles cfg) (OnTrack cfg start) rank where
  keeps actor s s' h hacts := h.moves hfaults hparse ⟨actor, hacts⟩
  idle_le := by
    rintro actor s s' h ⟨i, w, rfl, hw, hvain⟩ ⟨-, hstep⟩
    obtain ⟨w₁, w', channel, hw₁, hworker, rfl⟩ := step_worker hstep
    obtain rfl : w₁ = w := Option.some.inj (hw₁.symm.trans hw)
    exact (h.rank_workerStep hw hworker).1 hvain
  moves_lt := by
    rintro actor s s' h hmoves ⟨hactor, hstep⟩
    cases actor with
    | watchdog => contradiction
    | consumer => exact h.rank_consumerStep hfaults hstep
    | worker i =>
        obtain ⟨w, w', channel, hw, hworker, rfl⟩ := step_worker hstep
        exact (h.rank_workerStep hw hworker).2 fun hvain => hmoves ⟨i, w, rfl, hw, hvain⟩

theorem rank_initial (cfg : PipelineConfig) (start : Nat) (store : UtxoStore)
    (assigned : List (List Nat)) :
    (initial cfg start store assigned).rank = 10 * assigned.flatten.length + 2 := by
  have hsum : ((assigned.map Worker.next).map (Worker.rank start)).sum =
      10 * assigned.flatten.length := by
    rw [List.map_map, List.length_flatten, ← List.sum_map_mul_left]
    congr 1
    exact List.map_congr_left fun heights _ => Worker.rank_next start heights
  show 2 + 2 * (∅ : AList fun _ : Nat => FullBlock).keys.length + 6 * 0 +
    ((assigned.map Worker.next).map (Worker.rank start)).sum = _
  rw [hsum, AList.keys_empty, List.length_nil]
  omega

/-! ## The end of a run -/

/-- The blocks the workers make of the heights of the range. -/
def parsedBlocks (cfg : PipelineConfig) (start height : Nat) : Option FullBlock :=
  if start ≤ height ∧ height < cfg.consume.endHeight then
    match cfg.parse height with
    | some (.block _ block) => some block
    | _ => none
  else
    none

/-- Everyone has returned, no one with an error, and what is left is the output of the
plain loop over the heights. -/
structure Over (cfg : PipelineConfig) (start : Nat) (store : UtxoStore) (s : Pipeline) :
    Prop where
  workers : ∀ w ∈ s.workers, w = .returned true
  phase : s.phase = .returned (.ok ())
  finished : Finished cfg.consume (parsedBlocks cfg start) start
    (.initial cfg.consume.blocksPerPart start store) s.consumer

section Rest

variable {cfg : PipelineConfig} {start : Nat} {store : UtxoStore} {s : Pipeline}

/-- Where nothing but tests in vain is enabled every height is applied, and everyone has
returned. -/
theorem OnTrack.returned_of_atRest (h : OnTrack cfg start s) (hcapacity : 1 ≤ cfg.channelDepth)
    (hrest : AtRest (Acts cfg) (Idles cfg) s) :
    s.channel = [] ∧ (∀ w ∈ s.workers, w = .returned true) ∧
      ∃ result, s.phase = .returned result := by
  have hconsumer : ∀ s', s.step cfg .consumer ≠ some s' := by
    intro s' hstep
    obtain ⟨i, w, heq, -⟩ := hrest .consumer s' ⟨by simp, hstep⟩
    cases heq
  have hdone : cfg.consume.endHeight ≤ s.consumer.next := by
    by_contra hlt
    rcases h.canProgress hcapacity (Nat.lt_of_not_le hlt) with ⟨s', hstep⟩ | hworker
    · exact hconsumer s' hstep
    · obtain ⟨i, w, s', hw, hstep, heffect⟩ := hworker
      obtain ⟨j, v, heq, hv, hvain⟩ := hrest (.worker i) s' ⟨by simp, hstep⟩
      obtain rfl := Actor.worker.inj heq
      obtain rfl := Option.some.inj (hv.symm.trans hw)
      exact heffect hvain
  have hnone : s.outstanding = [] := by
    refine List.eq_nil_iff_forall_not_mem.mpr fun height hmem => ?_
    have := (h.ledger.mem_iff h.start_le).mp hmem
    omega
  simp only [outstanding, List.append_eq_nil_iff, List.map_eq_nil_iff] at hnone
  obtain ⟨-, -, hchannel, hremaining⟩ := hnone
  have hworkers : ∀ w ∈ s.workers, w = .returned true := by
    intro w hw
    have hnil := List.flatMap_eq_nil_iff.mp hremaining w hw
    have hhealthy := h.healthy w hw
    cases w with
    | returned ok =>
        cases ok
        · contradiction
        · rfl
    | _ => cases hnil
  refine ⟨hchannel, hworkers, ?_⟩
  by_contra hgoing
  rw [not_exists] at hgoing
  by_cases hphase : s.phase = .receiving
  · have hall : s.workers.all Worker.isReturned = true :=
      List.all_eq_true.mpr fun w hw => by rw [hworkers w hw]; rfl
    refine hconsumer (s.closeChannel cfg) ?_
    simp only [step, Pipeline.consumerStep, hphase, hchannel, hall, if_true]
  · obtain ⟨s', hstep⟩ : ∃ s', s.consumerStep cfg = some s' :=
      consumerStep_of_not_receiving hphase hgoing
    exact hconsumer s' hstep

/-- Every height of the range parses, to a block as `parse_block_full` makes them. -/
def AllParse (cfg : PipelineConfig) (start : Nat) : Prop :=
  ∀ height, start ≤ height → height < cfg.consume.endHeight →
    ∃ block, cfg.parse height = some (.block height block) ∧ block.WellShaped

theorem AllParse.parsedBlocks_eq (h : AllParse cfg start) {height : Nat} (hlow : start ≤ height)
    (hhigh : height < cfg.consume.endHeight) :
    ∃ block, cfg.parse height = some (.block height block) ∧
      parsedBlocks cfg start height = some block := by
  obtain ⟨block, hblock, -⟩ := h height hlow hhigh
  exact ⟨block, hblock, by rw [parsedBlocks, if_pos ⟨hlow, hhigh⟩, hblock]⟩

theorem AllParse.shape (h : AllParse cfg start) {height : Nat} {block : FullBlock}
    (hblock : parsedBlocks cfg start height = some block) : block.WellShaped := by
  unfold parsedBlocks at hblock
  split at hblock
  · rename_i hrange
    obtain ⟨block', hmakes, hshape⟩ := h height hrange.1 hrange.2
    rw [hmakes] at hblock
    obtain rfl := Option.some.inj hblock
    exact hshape
  · contradiction

/-- Heights that parse, with their messages: one block for each. -/
theorem AllParse.blocks_of_made (h : AllParse cfg start) {sent : List Nat}
    {items : List WorkItem}
    (hmade : List.Forall₂ (fun height item => cfg.parse height = some item) sent items)
    (hsent : ∀ height ∈ sent, start ≤ height ∧ height < cfg.consume.endHeight) :
    items.map WorkItem.height = sent ∧ ∀ item ∈ items, ∃ height block,
      item = .block height block ∧ parsedBlocks cfg start height = some block := by
  induction hmade with
  | nil => exact ⟨rfl, fun item hmem => by cases hmem⟩
  | @cons height item sent items hmakes _ ih =>
      obtain ⟨hheights, hblocks⟩ := ih fun g hmem => hsent g (List.mem_cons_of_mem _ hmem)
      obtain ⟨hlow, hhigh⟩ := hsent height List.mem_cons_self
      obtain ⟨block, hblock, hparsed⟩ := h.parsedBlocks_eq hlow hhigh
      obtain rfl := Option.some.inj (hmakes.symm.trans hblock)
      refine ⟨congrArg (height :: ·) hheights, fun item hmem => ?_⟩
      rcases List.mem_cons.mp hmem with rfl | hrest
      · exact ⟨height, block, rfl, hparsed⟩
      · exact hblocks item hrest

/-- The messages of a run without failures are the blocks of its heights, in some
order. -/
theorem Accounted.arrivals {received : List WorkItem} {sent lost : List Nat}
    (h : Accounted cfg (List.range' start (cfg.consume.endHeight - start)) received sent lost s)
    (hparse : AllParse cfg start) (hstart : start < cfg.consume.endHeight)
    (hchannel : s.channel = []) (hworkers : ∀ w ∈ s.workers, w = .returned true) :
    Arrivals start cfg.consume.endHeight received ∧ ∀ item ∈ received, ∃ height block,
      item = .block height block ∧ parsedBlocks cfg start height = some block := by
  have hall : s.workers.all Worker.isReturned = true :=
    List.all_eq_true.mpr fun w hw => by rw [hworkers w hw]; rfl
  have hlost : lost = [] := h.keeps (List.any_eq_false.mpr fun w hw => by
    rw [hworkers w hw]
    exact Bool.false_ne_true)
  have hmade := h.made
  have haccounts := h.accounts
  rw [hchannel, List.append_nil] at hmade
  rw [remaining_of_all_returned hall, hlost, List.append_nil, List.append_nil] at haccounts
  obtain ⟨hheights, hblocks⟩ := hparse.blocks_of_made hmade fun height hmem => by
    have hrange := List.mem_range'_1.mp (haccounts.mem_iff.mp hmem)
    omega
  exact ⟨⟨hstart, hheights ▸ haccounts⟩, hblocks⟩

/-- Where a run comes to rest it is over. -/
theorem OnTrack.over (h : OnTrack cfg start s) (hcapacity : 1 ≤ cfg.channelDepth)
    (hfaults : cfg.consume.faults = .none) (hbulk : store.Bulk) (hparse : AllParse cfg start)
    (hstart : start < cfg.consume.endHeight)
    (hrealised : Realised cfg (List.range' start (cfg.consume.endHeight - start)) start store s)
    (hrest : AtRest (Acts cfg) (Idles cfg) s) : Over cfg start store s := by
  obtain ⟨hchannel, hworkers, result, hphase⟩ := h.returned_of_atRest hcapacity hrest
  -- However the consumer came to its end, it did what it does alone on what it received.
  obtain ⟨received, sent, lost, haccounted, hrun⟩ : ∃ received sent lost,
      Accounted cfg (List.range' start (cfg.consume.endHeight - start)) received sent lost s ∧
        (s.consumer, result) = consumeOrdered cfg.consume start store received := by
    cases hrealised with
    | @going received sent lost haccounted halone =>
        have hrun := halone []
        rw [aloneFrom, hphase, alone, List.append_nil] at hrun
        exact ⟨received, sent, lost, haccounted, hrun⟩
    | @closed received sent lost result' haccounted hclosed hreturned hphase' hlost hrun =>
        rw [hphase] at hphase'
        obtain rfl := ConsumerPhase.returned.inj hphase'
        exact ⟨received, sent, lost, haccounted, hrun⟩
  obtain ⟨arr, hitems⟩ := haccounted.arrivals hparse hstart hchannel hworkers
  obtain ⟨c, hreturns, hfinished⟩ := consumeOrdered_returns hbulk (fun _ _ => hparse.shape)
    hfaults arr hitems
  obtain ⟨rfl, rfl⟩ := Prod.mk.inj (hrun.trans hreturns)
  exact ⟨hworkers, hphase, hfinished⟩

end Rest

/-- For every number of workers, assignment of the heights in ascending order, watermark
and channel depth, when every height parses and nothing fails: no run has more than
`10 * (endHeight - start) + 2` steps besides tests in vain, every run can be continued
until it is over, and a run in which nothing but tests in vain is enabled is over.  What
it leaves then is the output of the plain loop over the heights. -/
theorem pipeline_terminates (cfg : PipelineConfig) (D : Digests) (start : Nat) (db : Db)
    (assigned : List (List Nat)) (hcapacity : 1 ≤ cfg.channelDepth)
    (hfaults : cfg.consume.faults = .none) (hstart : start < cfg.consume.endHeight)
    (hparse : ∀ height, start ≤ height → height < cfg.consume.endHeight →
      ∃ payload hash header block,
        parseBlockFull D payload (UInt32.ofNat height) hash header = .ok block ∧
        cfg.parse height = some (.block height block))
    (hassigned : assigned.flatten.Perm (List.range' start (cfg.consume.endHeight - start)))
    (hascending : ∀ heights ∈ assigned, heights.Pairwise (· < ·)) {n : Nat} {s : Pipeline}
    (hrun : CountedRun cfg n (initial cfg start (.openBulk db) assigned) s) :
    n ≤ 10 * (cfg.consume.endHeight - start) + 2 ∧
      (∃ m t, CountedRun cfg m s t ∧ Over cfg start (.openBulk db) t) ∧
      (AtRest (Acts cfg) (Idles cfg) s → Over cfg start (.openBulk db) s) := by
  have hblocks : AllParse cfg start := by
    intro height hlow hhigh
    obtain ⟨payload, hash, header, block, hblock, hitem⟩ := hparse height hlow hhigh
    exact ⟨block, hitem, (parseBlockFull_shape hblock).1⟩
  have hheight : ∀ height ∈ List.range' start (cfg.consume.endHeight - start), ∀ item,
      cfg.parse height = some item → item.height = height := by
    intro height hmem item hitem
    have hrange := List.mem_range'_1.mp hmem
    obtain ⟨block, hblock, -⟩ := hblocks height hrange.1 (by omega)
    obtain rfl := Option.some.inj (hitem.symm.trans hblock)
    rfl
  have hinitial : OnTrack cfg start (initial cfg start (.openBulk db) assigned) :=
    OnTrack.initial cfg rfl hassigned hascending
  have hranked := ranked hfaults hblocks
  have hover : ∀ {k : Nat} {t : Pipeline},
      CountedRun cfg k (initial cfg start (.openBulk db) assigned) t →
      AtRest (Acts cfg) (Idles cfg) t → Over cfg start (.openBulk db) t := by
    intro k t hreaches hrest
    have hrealised := (Realised.initial cfg start (.openBulk db) hassigned).runs
      (fun height => by rw [hfaults]; rfl) hheight hreaches.runs
    exact (hranked.inv_run hinitial hreaches).over hcapacity hfaults
      (UtxoStore.bulk_openBulk db) hblocks hstart hrealised hrest
  have hsteps := hranked.add_rank_le hinitial hrun
  rw [rank_initial, hassigned.length_eq, List.length_range'] at hsteps
  obtain ⟨m, t, hrun', hrest⟩ := hranked.exists_atRest (hranked.inv_run hinitial hrun)
  exact ⟨by omega, ⟨m, t, hrun', hover (hrun.trans hrun') hrest⟩, hover hrun⟩

/-- The sample pipeline with height 1 in the reorder buffer. -/
theorem pipeline_terminates_sample :
    ∃ n s, runSchedule samplePipeline
        (.consumer :: List.replicate 3 (.worker 1) ++ List.replicate 4 .consumer)
        (initial samplePipeline 0 (.openBulk sampleDb) [[0, 2], [1]]) = some s ∧
      s.consumer.reorderDepth = 1 ∧
      CountedRun samplePipeline n
        (initial samplePipeline 0 (.openBulk sampleDb) [[0, 2], [1]]) s ∧
      n ≤ 10 * (samplePipeline.consume.endHeight - 0) + 2 ∧
      (∃ m t, CountedRun samplePipeline m s t ∧ Over samplePipeline 0 (.openBulk sampleDb) t) ∧
      (AtRest (Acts samplePipeline) (Idles samplePipeline) s →
        Over samplePipeline 0 (.openBulk sampleDb) s) := by
  have hcheck : ((runSchedule samplePipeline
      (.consumer :: List.replicate 3 (.worker 1) ++ List.replicate 4 .consumer)
      (initial samplePipeline 0 (.openBulk sampleDb) [[0, 2], [1]])).any fun s =>
        s.consumer.reorderDepth == 1) = true := by
    decide +kernel
  obtain ⟨s, hs, hdepth⟩ := (Option.any_eq_true _ _).mp hcheck
  obtain ⟨n, hrun⟩ := countedRun_of_runSchedule (by decide) hs
  exact ⟨n, s, hs, beq_iff_eq.mp hdepth, hrun,
    pipeline_terminates samplePipeline treeDigests 0 sampleDb [[0, 2], [1]] (by decide) rfl
      (by decide) (fun height _ hlt => samplePipeline_parse height hlt) (by decide) (by decide)
      hrun⟩

end Pipeline

end Bidx
