import Bidx.Pipeline.Arrival
import Bidx.Pipeline.Workers

/-!
# Shutdown after a failed consumer

Once the consumer has returned an error, the receiver is gone and the two counters the
workers look at do not change any more.  A worker that gets to its send returns; a
worker inside the backpressure loop gets out of it when the frozen counters say so,
and never otherwise (the watchdog apart).  So everything is decided at the step in
which the consumer fails.
-/

namespace Bidx

/-- The height a worker inside the backpressure loop holds. -/
def Worker.waitsAt : Worker → Option Nat
  | .testing height _ => some height
  | .comparing height _ => some height
  | _ => none

namespace Pipeline

/-- `consume_ordered` has returned an error. -/
def Failed (s : Pipeline) : Prop := ∃ e, s.phase = .returned (.error e)

/-- Every worker inside the loop finds a reason to leave it. -/
def LetsWorkersOut (cfg : PipelineConfig) (s : Pipeline) : Prop :=
  s.consumer.reorderDepth ≤ cfg.reorderHigh ∨
    ∀ w ∈ s.workers, ∀ height, w.waitsAt = some height → height = s.consumer.next

/-- The worker can still take steps, its own and others', to its return. -/
def CanReturn (cfg : PipelineConfig) (s : Pipeline) (i : Nat) : Prop :=
  ∃ s', Runs cfg s s' ∧ ∃ ok, s'.workers[i]? = some (.returned ok)

/-- A step such that, when the consumer fails in it, the workers are let out. -/
def GuardedMoves (cfg : PipelineConfig) (s s' : Pipeline) : Prop :=
  Moves cfg s s' ∧ (¬s.Failed → s'.Failed → s'.LetsWorkersOut cfg)

section Steps

variable {cfg : PipelineConfig} {s s' : Pipeline} {i : Nat} {w w' : Worker} {height : Nat}
  {rest : List Nat} {channel : List WorkItem}

theorem Failed.receiverDropped (h : s.Failed) : s.receiverDropped = true := by
  obtain ⟨e, he⟩ := h
  rw [Pipeline.receiverDropped, he]

theorem Failed.consumerStep (h : s.Failed) : s.consumerStep cfg = none := by
  obtain ⟨e, he⟩ := h
  rw [Pipeline.consumerStep, he]

/-- After the failure only workers move. -/
theorem Failed.moves (h : s.Failed) (hmoves : Moves cfg s s') :
    ∃ i w w' channel, s.workers[i]? = some w ∧ s.workerStep cfg w = some (w', channel) ∧
      s' = { s with workers := s.workers.set i w', channel } := by
  obtain ⟨actor, hactor, hstep⟩ := hmoves
  cases actor with
  | consumer =>
      rw [step, h.consumerStep] at hstep
      contradiction
  | worker i => exact ⟨i, step_worker hstep⟩
  | watchdog => contradiction

theorem consumerStep_workers (h : s.consumerStep cfg = some s') :
    s'.workers = s.workers ∧ s'.tripped = s.tripped := by
  have hresume : ∀ phase step, (s.resume phase step).workers = s.workers ∧
      (s.resume phase step).tripped = s.tripped := by
    intro phase step
    cases step <;> exact ⟨rfl, rfl⟩
  cases consumerStep_move h with
  | closes =>
      unfold closeChannel
      split
      · split <;> exact ⟨rfl, rfl⟩
      · exact hresume _ _
  | skips => exact hresume _ _
  | applies => exact hresume _ _
  | createFails => exact ⟨rfl, rfl⟩
  | creates => exact ⟨rfl, rfl⟩
  | receives => exact ⟨rfl, rfl⟩
  | stores => exact ⟨rfl, rfl⟩
  | drains => exact ⟨rfl, rfl⟩
  | waits => exact ⟨rfl, rfl⟩
  | stopsOnTrip => exact ⟨rfl, rfl⟩
  | takes => exact ⟨rfl, rfl⟩
  | rotateFails => exact ⟨rfl, rfl⟩

theorem Moves.tripped (h : Moves cfg s s') : s'.tripped = s.tripped := by
  obtain ⟨actor, hactor, hstep⟩ := h
  cases actor with
  | consumer => exact (consumerStep_workers hstep).2
  | worker i =>
      obtain ⟨w, w', channel, -, -, rfl⟩ := step_worker hstep
      rfl
  | watchdog => contradiction

/-- After the failure a worker only stays in the loop with the height it holds. -/
theorem Failed.waitsAt_of_workerStep (h : s.Failed)
    (hstep : s.workerStep cfg w = some (w', channel)) (hwaits : w'.waitsAt = some height) :
    w.waitsAt = some height := by
  cases workerStep_move hstep with
  | waits => exact hwaits
  | retests => exact hwaits
  | passes => cases hwaits
  | isNext => cases hwaits
  | stopsOnTrip => cases hwaits
  | parses => cases hwaits
  | parseFails => cases hwaits
  | sendFails => cases hwaits
  | sends hopen =>
      rw [h.receiverDropped] at hopen
      contradiction

theorem LetsWorkersOut.moves (hout : s.LetsWorkersOut cfg) (h : s.Failed)
    (hmoves : Moves cfg s s') : s'.LetsWorkersOut cfg := by
  obtain ⟨i, w, w', channel, hw, hstep, rfl⟩ := h.moves hmoves
  refine hout.imp_right ?_
  intro hall v hv height hwaits
  rcases List.mem_or_eq_of_mem_set hv with hold | rfl
  · exact hall v hold height hwaits
  · exact hall w (List.mem_of_getElem? hw) height (h.waitsAt_of_workerStep hstep hwaits)

end Steps

/-! ## Ways out -/

section Out

variable {cfg : PipelineConfig} {s : Pipeline} {i : Nat} {w w' : Worker} {height : Nat}
  {rest : List Nat} {channel : List WorkItem}

/-- One step of the worker itself, after which it can return. -/
theorem canReturn_of_step (hw : s.workers[i]? = some w)
    (hstep : s.workerStep cfg w = some (w', channel))
    (hnext : CanReturn cfg { s with workers := s.workers.set i w', channel } i) :
    CanReturn cfg s i := by
  obtain ⟨s', hruns, hreturned⟩ := hnext
  exact ⟨s', .head ⟨.worker i, by simp, step_worker_eq hw hstep⟩ hruns, hreturned⟩

theorem canReturn_of_returned {ok : Bool} (hw : s.workers[i]? = some (.returned ok)) :
    CanReturn cfg s i := ⟨s, .refl, ok, hw⟩

theorem getElem?_set_self {ws : List Worker} (hw : ws[i]? = some w) :
    (ws.set i w')[i]? = some w' :=
  List.getElem?_set_self (List.getElem?_eq_some_iff.mp hw).1

theorem canReturn_of_sending {item : WorkItem} (h : s.Failed)
    (hw : s.workers[i]? = some (.sending item rest)) : CanReturn cfg s i := by
  have hstep : s.workerStep cfg (.sending item rest) = some (.returned false, s.channel) := by
    rw [workerStep, h.receiverDropped]
    rfl
  exact canReturn_of_step hw hstep (canReturn_of_returned (getElem?_set_self hw))

theorem canReturn_of_parsing (h : s.Failed) (hw : s.workers[i]? = some (.parsing height rest)) :
    CanReturn cfg s i := by
  cases hparse : cfg.parse height with
  | none =>
      have hstep : s.workerStep cfg (.parsing height rest) = some (.returned false, s.channel) := by
        rw [workerStep, hparse]
      exact canReturn_of_step hw hstep (canReturn_of_returned (getElem?_set_self hw))
  | some item =>
      have hstep :
          s.workerStep cfg (.parsing height rest) = some (.sending item rest, s.channel) := by
        rw [workerStep, hparse]
      exact canReturn_of_step hw hstep (canReturn_of_sending h (getElem?_set_self hw))

/-- Below the watermark the next test lets the worker out. -/
theorem canReturn_of_testing_low (h : s.Failed) (hlow : s.consumer.reorderDepth ≤ cfg.reorderHigh)
    (hw : s.workers[i]? = some (.testing height rest)) : CanReturn cfg s i := by
  have hstep :
      s.workerStep cfg (.testing height rest) = some (.parsing height rest, s.channel) := by
    rw [workerStep, if_neg (by omega)]
  exact canReturn_of_step hw hstep (canReturn_of_parsing h (getElem?_set_self hw))

/-- The holder of `next_height` leaves the loop at the comparison. -/
theorem canReturn_of_comparing_next (h : s.Failed)
    (hw : s.workers[i]? = some (.comparing s.consumer.next rest)) : CanReturn cfg s i := by
  have hstep : s.workerStep cfg (.comparing s.consumer.next rest) =
      some (.parsing s.consumer.next rest, s.channel) := by
    rw [workerStep, if_pos rfl]
  exact canReturn_of_step hw hstep (canReturn_of_parsing h (getElem?_set_self hw))

theorem LetsWorkersOut.canReturn (hout : s.LetsWorkersOut cfg) (h : s.Failed)
    (htripped : s.tripped = false) (hw : s.workers[i]? = some w) : CanReturn cfg s i := by
  cases w with
  | returned ok => exact canReturn_of_returned hw
  | sending item rest => exact canReturn_of_sending h hw
  | parsing height rest => exact canReturn_of_parsing h hw
  | testing height rest =>
      by_cases hlow : s.consumer.reorderDepth ≤ cfg.reorderHigh
      · exact canReturn_of_testing_low h hlow hw
      · obtain rfl : height = s.consumer.next :=
          hout.resolve_left hlow _ (List.mem_of_getElem? hw) height rfl
        have hstep : s.workerStep cfg (.testing s.consumer.next rest) =
            some (.comparing s.consumer.next rest, s.channel) := by
          rw [workerStep, if_pos (by omega)]
        exact canReturn_of_step hw hstep (canReturn_of_comparing_next h (getElem?_set_self hw))
  | comparing height rest =>
      by_cases hnext : s.consumer.next = height
      · subst hnext
        exact canReturn_of_comparing_next h hw
      · have hlow : s.consumer.reorderDepth ≤ cfg.reorderHigh := by
          by_contra hhigh
          exact hnext (hout.resolve_left hhigh _ (List.mem_of_getElem? hw) height rfl).symm
        have hstep : s.workerStep cfg (.comparing height rest) =
            some (.testing height rest, s.channel) := by
          rw [workerStep, if_neg hnext, htripped]
          rfl
        exact canReturn_of_step hw hstep
          (canReturn_of_testing_low h hlow (getElem?_set_self hw))

end Out

/-! ## Shutdown -/

/-- A worker that stays in the loop whatever happens. -/
structure Stuck (cfg : PipelineConfig) (i height : Nat) (s : Pipeline) : Prop where
  failed : s.Failed
  tripped : s.tripped = false
  high : cfg.reorderHigh < s.consumer.reorderDepth
  next_ne : s.consumer.next ≠ height
  waits : ∃ w, s.workers[i]? = some w ∧ w.waitsAt = some height

theorem Stuck.moves {cfg : PipelineConfig} {i height : Nat} {s s' : Pipeline}
    (h : Stuck cfg i height s) (hmoves : Moves cfg s s') : Stuck cfg i height s' := by
  obtain ⟨j, v, v', channel, hv, hstep, rfl⟩ := h.failed.moves hmoves
  refine ⟨h.failed, h.tripped, h.high, h.next_ne, ?_⟩
  obtain ⟨w, hw, hwaits⟩ := h.waits
  show ∃ w, (s.workers.set j v')[i]? = some w ∧ w.waitsAt = some height
  by_cases hij : j = i
  · subst hij
    obtain rfl : v = w := by
      rw [hv] at hw
      exact Option.some.inj hw
    refine ⟨v', getElem?_set_self hv, ?_⟩
    -- Both loads of the loop condition keep the worker in the loop.
    cases v with
    | testing g rest =>
        rw [workerStep, if_pos h.high] at hstep
        cases hstep
        exact hwaits
    | comparing g rest =>
        obtain rfl : g = height := Option.some.inj hwaits
        rw [workerStep, if_neg h.next_ne, h.tripped] at hstep
        cases hstep
        exact hwaits
    | parsing g rest => cases hwaits
    | sending item rest => cases hwaits
    | returned ok => cases hwaits
  · exact ⟨w, by rw [List.getElem?_set_ne hij]; exact hw, hwaits⟩

theorem Stuck.runs {cfg : PipelineConfig} {i height : Nat} {s s' : Pipeline}
    (h : Stuck cfg i height s) (hruns : Runs cfg s s') : Stuck cfg i height s' := by
  induction hruns with
  | refl => exact h
  | tail _ hmoves ih => exact ih.moves hmoves

theorem Runs.tripped {cfg : PipelineConfig} {s s' : Pipeline} (h : Runs cfg s s') :
    s'.tripped = s.tripped := by
  induction h with
  | refl => rfl
  | tail _ hmoves ih => rw [hmoves.tripped, ih]

/-- In every run in which the consumer only fails while the counters let the workers
out, every worker can return in every state after the failure.  In every other run
with a failure, some worker stays inside the loop for good. -/
theorem shutdown_after_failure (cfg : PipelineConfig) (start : Nat) (store : UtxoStore)
    (assigned : List (List Nat)) :
    (∀ s, Relation.ReflTransGen (GuardedMoves cfg) (initial cfg start store assigned) s →
      s.Failed → ∀ i w, s.workers[i]? = some w → CanReturn cfg s i) ∧
    ∀ s s₁ s₂, Runs cfg (initial cfg start store assigned) s → ¬s.Failed → Moves cfg s s₁ →
      s₁.Failed → ¬s₁.LetsWorkersOut cfg → Runs cfg s₁ s₂ →
      ∃ i height : Nat, ∀ s₃, Runs cfg s₂ s₃ →
        ∃ w, s₃.workers[i]? = some w ∧ w.waitsAt = some height := by
  constructor
  · intro s hguarded hfailed i w hw
    have hinv : s.tripped = false ∧ (s.Failed → s.LetsWorkersOut cfg) := by
      clear hw hfailed
      induction hguarded with
      | refl => exact ⟨rfl, fun ⟨e, he⟩ => by cases he⟩
      | @tail s s' _ hmoves ih =>
          refine ⟨by rw [hmoves.1.tripped, ih.1], fun hfailed' => ?_⟩
          by_cases hfailed : s.Failed
          · exact (ih.2 hfailed).moves hfailed hmoves.1
          · exact hmoves.2 hfailed hfailed'
    exact (hinv.2 hfailed).canReturn hfailed hinv.1 hw
  · intro s s₁ s₂ hruns hrunning hmoves hfailed hclosed hruns₂
    obtain ⟨hhigh, w, hw, height, hwaits, hne⟩ : cfg.reorderHigh < s₁.consumer.reorderDepth ∧
        ∃ w ∈ s₁.workers, ∃ height, w.waitsAt = some height ∧ height ≠ s₁.consumer.next := by
      simp only [LetsWorkersOut, not_or, not_le, not_forall] at hclosed
      obtain ⟨hhigh, w, hw, height, hwaits, hne⟩ := hclosed
      exact ⟨hhigh, w, hw, height, hwaits, hne⟩
    obtain ⟨i, hi⟩ := List.mem_iff_getElem?.mp hw
    have hstuck : Stuck cfg i height s₁ :=
      ⟨hfailed, by rw [hmoves.tripped, hruns.tripped]; rfl, hhigh, Ne.symm hne, w, hi, hwaits⟩
    refine ⟨i, height, fun s₃ hruns₃ => ?_⟩
    exact ((hstuck.runs hruns₂).runs hruns₃).waits

/-! Two workers, one with height 0 and one with all others.  The second sends heights
1 to 33 before the first sends height 0; the write of block 0 to the store then fails with
33 blocks in the reorder buffer. -/

def sampleFailure : PipelineConfig where
  consume := { sampleConfig 60 with
    faults := { ConsumeFaults.none with
      rocks := fun height => { RocksFaults.none with write := height = 0 } } }
  reorderHigh := 32
  channelDepth := 512
  parse height := some (.block height (sampleBlock (UInt32.ofNat height) (height + 1)))

/-- Heights 1 to 33 are sent and received, then height 0; the last step fails. -/
def sampleFailureSchedule : List Actor :=
  .consumer :: (List.replicate (33 * 3) (.worker 1) ++ List.replicate (33 * 4) .consumer ++
    List.replicate 4 (.worker 0) ++ List.replicate 5 .consumer)

/-- The facts of `Stuck`, evaluated. -/
def isStuck (cfg : PipelineConfig) (i height : Nat) (s : Pipeline) : Bool :=
  (match s.phase with
    | .returned (.error _) => true
    | _ => false) && !s.tripped && decide (cfg.reorderHigh < s.consumer.reorderDepth) &&
    decide (s.consumer.next ≠ height) && (s.workers[i]?.bind Worker.waitsAt) == some height

theorem stuck_of_isStuck {cfg : PipelineConfig} {i height : Nat} {s : Pipeline}
    (h : isStuck cfg i height s = true) : Stuck cfg i height s := by
  simp only [isStuck, Bool.and_eq_true, Bool.not_eq_true', decide_eq_true_eq, beq_iff_eq,
    Option.bind_eq_some_iff] at h
  obtain ⟨⟨⟨⟨hphase, htripped⟩, hhigh⟩, hne⟩, hwaits⟩ := h
  refine ⟨?_, htripped, hhigh, hne, hwaits⟩
  split at hphase
  · rename_i e he
    exact ⟨e, he⟩
  · contradiction

theorem failed_consumer_strands_worker :
    ∃ s, Runs sampleFailure
        (initial sampleFailure 0 (.openBulk sampleDb) [[0], List.range' 1 59]) s ∧ s.Failed ∧
      s.workers.length = 2 ∧ ¬CanReturn sampleFailure s 1 := by
  have hstuck : ((runSchedule sampleFailure sampleFailureSchedule
      (initial sampleFailure 0 (.openBulk sampleDb) [[0], List.range' 1 59])).any fun s =>
        s.workers.length == 2 && isStuck sampleFailure 1 34 s) = true := by
    decide +kernel
  obtain ⟨s, hs, hcheck⟩ := (Option.any_eq_true _ _).mp hstuck
  simp only [Bool.and_eq_true, beq_iff_eq] at hcheck
  have hstuck := stuck_of_isStuck hcheck.2
  refine ⟨s, runs_of_runSchedule (by decide) hs, hstuck.failed, hcheck.1, ?_⟩
  rintro ⟨s', hruns, ok, hreturned⟩
  obtain ⟨w, hw, hwaits⟩ := (hstuck.runs hruns).waits
  rw [hreturned] at hw
  cases hw
  cases hwaits

end Pipeline

end Bidx
