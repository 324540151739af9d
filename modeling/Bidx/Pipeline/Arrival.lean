import Mathlib.Data.List.Nodup
import Bidx.Pipeline.SinkLog
import Bidx.Store.ApplySpec

/-!
# When the ordered consumer gets through

The consumer advances over skipped heights and then over buffered blocks, once
each for a received message.  A skipped height right after a block (a *crossing*)
therefore costs a message of its own: reaching it takes the block loop, passing
it the skip loop of a later message.  The last messages may run out before the
last crossing is passed, and then the channel closes early although every height
has arrived.

The exact condition is about arrival positions: after each item there must be at
least as many further messages as crossings above its height.
-/

namespace Bidx

open KeyValue

/-! ## What has arrived -/

/-- The block that arrived for a height. -/
def blockAt (items : List WorkItem) (h : Nat) : Option FullBlock :=
  items.findSome? fun item =>
    match item with
    | .block height block => if height = h then some block else none
    | .skipped _ => none

/-- A skip marker arrived for a height. -/
def isSkippedAt (items : List WorkItem) (h : Nat) : Bool :=
  items.any fun item =>
    match item with
    | .block _ _ => false
    | .skipped height => decide (height = h)

/-- A skipped height that follows a block. -/
def isCrossing (items : List WorkItem) (j : Nat) : Bool :=
  (blockAt items (j - 1)).isSome && isSkippedAt items j

/-- The number of crossings above `a` and below `n`. -/
def crossings (items : List WorkItem) (a n : Nat) : Nat :=
  ((List.range n).filter fun j => decide (a < j) && isCrossing items j).length

/-- Exactly one item for every height from `start` up to `endHeight`. -/
structure Arrivals (start endHeight : Nat) (items : List WorkItem) : Prop where
  start_lt : start < endHeight
  heights : (items.map WorkItem.height).Perm (List.range' start (endHeight - start))

section Items

variable {items items' : List WorkItem} {h a n : Nat} {block : FullBlock}

theorem blockAt_append (items items' : List WorkItem) (h : Nat) :
    blockAt (items ++ items') h = (blockAt items h).or (blockAt items' h) :=
  List.findSome?_append ..

theorem isSkippedAt_append (items items' : List WorkItem) (h : Nat) :
    isSkippedAt (items ++ items') h = (isSkippedAt items h || isSkippedAt items' h) :=
  List.any_append ..

theorem mem_of_blockAt (hb : blockAt items h = some block) : .block h block ∈ items := by
  obtain ⟨item, hmem, hitem⟩ := List.exists_of_findSome?_eq_some hb
  cases item with
  | block height b =>
      simp only at hitem
      split at hitem
      · rename_i heq
        subst heq
        obtain rfl := Option.some.inj hitem
        exact hmem
      · contradiction
  | skipped height => contradiction

theorem mem_of_isSkippedAt (hs : isSkippedAt items h = true) : .skipped h ∈ items := by
  obtain ⟨item, hmem, hitem⟩ := List.any_eq_true.mp hs
  cases item with
  | block height b => contradiction
  | skipped height =>
      simp only [decide_eq_true_eq] at hitem
      subst hitem
      exact hmem

theorem blockAt_eq_none (hh : h ∉ items.map WorkItem.height) : blockAt items h = none := by
  cases hb : blockAt items h with
  | none => rfl
  | some block => exact absurd (List.mem_map_of_mem (mem_of_blockAt hb)) hh

theorem isSkippedAt_eq_false (hh : h ∉ items.map WorkItem.height) :
    isSkippedAt items h = false := by
  cases hs : isSkippedAt items h with
  | false => rfl
  | true => exact absurd (List.mem_map_of_mem (mem_of_isSkippedAt hs)) hh

theorem isSkippedAt_of_mem (hs : .skipped h ∈ items) : isSkippedAt items h = true :=
  List.any_eq_true.mpr ⟨_, hs, by simp⟩

/-- A height that arrived did so as a block or as a skip marker. -/
theorem blockAt_or_skipped (hh : h ∈ items.map WorkItem.height) :
    blockAt items h ≠ none ∨ isSkippedAt items h = true := by
  obtain ⟨item, hmem, rfl⟩ := List.mem_map.mp hh
  cases item with
  | block height b =>
      left
      intro hnone
      have := List.findSome?_eq_none_iff.mp hnone _ hmem
      simp [WorkItem.height] at this
  | skipped height => exact .inr (isSkippedAt_of_mem hmem)

namespace Arrivals

variable {start endHeight : Nat}

theorem nodup (arr : Arrivals start endHeight items) : (items.map WorkItem.height).Nodup :=
  arr.heights.nodup_iff.mpr List.nodup_range'

theorem mem_heights (arr : Arrivals start endHeight items) :
    h ∈ items.map WorkItem.height ↔ start ≤ h ∧ h < endHeight := by
  have := arr.start_lt
  rw [arr.heights.mem_iff, List.mem_range'_1]
  omega

/-- No height arrives both as a block and as a skip marker. -/
theorem exclusive (arr : Arrivals start endHeight items) (hs : isSkippedAt items h = true) :
    blockAt items h = none := by
  cases hb : blockAt items h with
  | none => rfl
  | some block =>
      have heq := List.inj_on_of_nodup_map arr.nodup (mem_of_blockAt hb) (mem_of_isSkippedAt hs)
        rfl
      cases heq

end Arrivals

/-! ## Counting crossings -/

theorem crossings_succ (items : List WorkItem) (a n : Nat) :
    crossings items a (n + 1) =
      crossings items a n + if a < n ∧ isCrossing items n = true then 1 else 0 := by
  unfold crossings
  rw [List.range_succ, List.filter_append, List.length_append]
  by_cases h : a < n ∧ isCrossing items n = true
  · simp [h]
  · have hfalse : (decide (a < n) && isCrossing items n) = false := by simpa using h
    rw [if_neg h, List.filter_singleton, hfalse, cond_false, List.length_nil]

theorem crossings_mono (items : List WorkItem) (a : Nat) {n n' : Nat} (h : n ≤ n') :
    crossings items a n ≤ crossings items a n' := by
  induction n', h using Nat.le_induction with
  | base => exact le_rfl
  | succ n' _ ih =>
      rw [crossings_succ]
      omega

/-- A stretch without crossings above `a` adds nothing to the count. -/
theorem crossings_eq_of_none {n n' : Nat} (hle : n ≤ n')
    (hnone : ∀ j, n ≤ j → j < n' → a < j → isCrossing items j = false) :
    crossings items a n' = crossings items a n := by
  induction n', hle using Nat.le_induction with
  | base => rfl
  | succ n' hle ih =>
      have hlast : ¬(a < n' ∧ isCrossing items n' = true) := by
        rintro ⟨ha, hc⟩
        rw [hnone n' hle (by omega) ha] at hc
        contradiction
      rw [crossings_succ, if_neg hlast, ih fun j h1 h2 h3 => hnone j h1 (by omega) h3]
      omega

end Items

/-! ## The state of the consumer -/

/-- The push that belongs to an `apply_block` call. -/
def IsPushOf (cfg : ConsumeConfig) (items : List WorkItem)
    (call : Nat × Except (Stop UtxoError) SpendResult)
    (push : Nat × FullBlock × List SpendRow) : Prop :=
  ∃ block res, blockAt items call.1 = some block ∧ call.2 = .ok res ∧
    push = (call.1 / cfg.blocksPerPart, enrich block res.fees, res.spends)

/-- The consumer after the items `arrived`: what it holds is what it has not passed
yet, and what it has passed was applied and pushed in order. -/
structure Progress (cfg : ConsumeConfig) (start : Nat) (arrived : List WorkItem)
    (c : Consumer) : Prop where
  start_le : start ≤ c.next
  next_le : c.next ≤ cfg.endHeight
  buffer : ∀ h, c.buffer.lookup h = if c.next ≤ h then blockAt arrived h else none
  skipped : ∀ h, h ∈ c.skippedQueue ↔ c.next ≤ h ∧ isSkippedAt arrived h = true
  passed : ∀ h, start ≤ h → h < c.next → h ∈ arrived.map WorkItem.height
  applied : c.applied.map Prod.fst =
    (List.range' start (c.next - start)).filter fun h => (blockAt arrived h).isSome
  pushed : List.Forall₂ (IsPushOf cfg arrived) c.applied (pushes c.sink)

/-- A call of `apply_block` has failed. -/
def ApplyFailed (c : Consumer) : Prop :=
  ∃ call ∈ c.applied, ∀ res, call.2 ≠ .ok res

/-- What a loop that started in order may end with. -/
def StepOk (cfg : ConsumeConfig) (start : Nat) (arrived : List WorkItem) (good : Nat → Prop) :
    Step → Prop
  | .running c => Progress cfg start arrived c ∧ c.next < cfg.endHeight ∧ good c.next
  | .returned c (.ok ()) => Progress cfg start arrived c ∧ c.next = cfg.endHeight ∧ good c.next
  | .returned c (.error (.utxo _)) => ApplyFailed c
  | .returned _ (.error _) => False

section Loops

variable {cfg : ConsumeConfig} {start : Nat} {arrived : List WorkItem} {c : Consumer}

theorem StepOk.imp {good good' : Nat → Prop} (himp : ∀ n, good n → good' n) {step : Step}
    (h : StepOk cfg start arrived good step) : StepOk cfg start arrived good' step := by
  match step, h with
  | .running c, h => exact ⟨h.1, h.2.1, himp _ h.2.2⟩
  | .returned c (.ok ()), h => exact ⟨h.1, h.2.1, himp _ h.2.2⟩
  | .returned c (.error (.utxo _)), h => exact h

/-- Where a round ends when nothing fails: at the last height or before it. -/
def finishOrGo (cfg : ConsumeConfig) (c : Consumer) : Step :=
  if cfg.endHeight ≤ c.next then
    .returned { c with sink := c.sink ++ [.finish c.partId] } (.ok ())
  else
    .running c

theorem advance_eq (hfaults : cfg.faults = .none) (c : Consumer) :
    advance cfg c = finishOrGo cfg { c with next := c.next + 1 } := by
  simp only [advance, finishSink, finishOrGo, hfaults, ConsumeFaults.none, Bool.false_eq_true,
    if_false]

theorem Progress.finished (h : Progress cfg start arrived c) (hend : cfg.endHeight ≤ c.next)
    {good : Nat → Prop} (hgood : good c.next) :
    StepOk cfg start arrived good (finishOrGo cfg c) := by
  have hle := h.next_le
  rw [finishOrGo, if_pos hend]
  refine ⟨⟨h.start_le, h.next_le, h.buffer, h.skipped, h.passed, h.applied, ?_⟩,
    Nat.le_antisymm hle hend, hgood⟩
  simpa [pushes] using h.pushed

/-- The state after passing a skipped height. -/
theorem Progress.skip (h : Progress cfg start arrived c) (hmem : c.next ∈ c.skippedQueue)
    (hlt : c.next < cfg.endHeight) (hblock : blockAt arrived c.next = none) :
    Progress cfg start arrived
      { c with skippedQueue := c.skippedQueue.erase c.next, next := c.next + 1 } := by
  have hskip : isSkippedAt arrived c.next = true := ((h.skipped c.next).mp hmem).2
  have hstart := h.start_le
  constructor
  case start_le => exact Nat.le_succ_of_le h.start_le
  case next_le => exact hlt
  case buffer =>
    intro a
    rw [h.buffer a]
    by_cases ha : a = c.next
    · subst ha
      simp [hblock]
    · have hiff : c.next ≤ a ↔ c.next + 1 ≤ a := by omega
      simp only [hiff]
  case skipped =>
    intro a
    rw [Finset.mem_erase, h.skipped a]
    constructor
    · rintro ⟨hne, hle, hs⟩
      exact ⟨by change c.next + 1 ≤ a; omega, hs⟩
    · rintro ⟨hle, hs⟩
      change c.next + 1 ≤ a at hle
      exact ⟨by omega, by omega, hs⟩
  case passed =>
    intro a hstart hlt
    change a < c.next + 1 at hlt
    by_cases ha : a = c.next
    · subst ha
      exact List.mem_map_of_mem (mem_of_isSkippedAt hskip)
    · exact h.passed a hstart (by omega)
  case applied =>
    change c.applied.map Prod.fst = (List.range' start (c.next + 1 - start)).filter _
    have hlast : start + (c.next - start) = c.next := by omega
    rw [show c.next + 1 - start = c.next - start + 1 by omega, List.range'_1_concat,
      List.filter_append, hlast, h.applied]
    simp [hblock]
  case pushed => exact h.pushed

/-- The state after applying and pushing a block. -/
theorem Progress.block {c' : Consumer} {block : FullBlock} {res : SpendResult}
    (h : Progress cfg start arrived c) (hlt : c.next < cfg.endHeight)
    (hblock : blockAt arrived c.next = some block) (hskip : isSkippedAt arrived c.next = false)
    (hbuffer : c'.buffer = c.buffer.erase c.next) (hqueue : c'.skippedQueue = c.skippedQueue)
    (hnext : c'.next = c.next + 1) (happlied : c'.applied = c.applied ++ [(c.next, .ok res)])
    (hsink : pushes c'.sink = pushes c.sink ++
      [(c.next / cfg.blocksPerPart, enrich block res.fees, res.spends)]) :
    Progress cfg start arrived c' := by
  have hstart := h.start_le
  constructor
  case start_le => omega
  case next_le => omega
  case buffer =>
    intro a
    rw [hbuffer, hnext]
    by_cases ha : a = c.next
    · subst ha
      rw [AList.lookup_erase, if_neg (by omega)]
    · have hiff : c.next ≤ a ↔ c.next + 1 ≤ a := by omega
      rw [AList.lookup_erase_ne ha, h.buffer a]
      simp only [hiff]
  case skipped =>
    intro a
    rw [hqueue, h.skipped a, hnext]
    constructor
    · rintro ⟨hle, hs⟩
      refine ⟨?_, hs⟩
      by_contra hnot
      obtain rfl : a = c.next := by omega
      rw [hskip] at hs
      contradiction
    · rintro ⟨hle, hs⟩
      exact ⟨by omega, hs⟩
  case passed =>
    intro a hstart hlt
    rw [hnext] at hlt
    by_cases ha : a = c.next
    · subst ha
      exact List.mem_map_of_mem (mem_of_blockAt hblock)
    · exact h.passed a hstart (by omega)
  case applied =>
    have hlast : start + (c.next - start) = c.next := by omega
    rw [happlied, hnext, show c.next + 1 - start = c.next - start + 1 by omega,
      List.range'_1_concat, List.filter_append, hlast, List.map_append, h.applied]
    simp [hblock]
  case pushed =>
    rw [happlied, hsink]
    refine List.rel_append h.pushed ?_
    exact .cons ⟨block, res, hblock, rfl, rfl⟩ .nil

theorem Progress.not_skipped (h : Progress cfg start arrived c)
    (hnot : c.next ∉ c.skippedQueue) : isSkippedAt arrived c.next = false := by
  by_contra hs
  exact hnot ((h.skipped c.next).mpr ⟨le_rfl, by simpa using hs⟩)

/-- The skip loop stops at the first height that is not skipped. -/
theorem skipLoop_ok (hfaults : cfg.faults = .none)
    (hexclusive : ∀ h, isSkippedAt arrived h = true → blockAt arrived h = none)
    {rounds : Nat} (h : Progress cfg start arrived c) (hlt : c.next < cfg.endHeight)
    (hrounds : c.skippedQueue.card ≤ rounds) :
    StepOk cfg start arrived
      (fun m => c.next ≤ m ∧ (∀ j, c.next ≤ j → j < m → isSkippedAt arrived j = true) ∧
        (m < cfg.endHeight → isSkippedAt arrived m = false)) (skipLoop cfg rounds c) := by
  induction rounds generalizing c with
  | zero =>
      have hempty : c.skippedQueue = ∅ := Finset.card_eq_zero.mp (by omega)
      refine ⟨h, hlt, le_rfl, fun j h1 h2 => by omega, fun _ => h.not_skipped ?_⟩
      simp [hempty]
  | succ rounds ih =>
      rw [skipLoop]
      by_cases hmem : c.next ∈ c.skippedQueue
      · have hskip : isSkippedAt arrived c.next = true := ((h.skipped c.next).mp hmem).2
        have hnext := h.skip hmem hlt (hexclusive _ hskip)
        rw [if_pos hmem, advance_eq hfaults]
        by_cases hend : cfg.endHeight ≤ c.next + 1
        · have hfin : StepOk cfg start arrived (fun m => m = c.next + 1) (finishOrGo cfg _) :=
            hnext.finished hend rfl
          rw [finishOrGo, if_pos hend] at hfin ⊢
          refine hfin.imp ?_
          rintro m rfl
          refine ⟨by omega, fun j h1 h2 => ?_, fun h3 => by omega⟩
          obtain rfl : j = c.next := by omega
          exact hskip
        · rw [finishOrGo, if_neg hend]
          have hcard : (c.skippedQueue.erase c.next).card ≤ rounds := by
            rw [Finset.card_erase_of_mem hmem]
            omega
          refine (ih hnext (by change c.next + 1 < _; omega) hcard).imp ?_
          rintro m ⟨hle, hall, hlast⟩
          change c.next + 1 ≤ m at hle
          refine ⟨by omega, fun j h1 h2 => ?_, hlast⟩
          by_cases hj : j = c.next
          · subst hj
            exact hskip
          · exact hall j (by change c.next + 1 ≤ j; omega) h2
      · rw [if_neg hmem]
        exact ⟨h, hlt, le_rfl, fun j h1 h2 => by omega, fun _ => h.not_skipped hmem⟩

theorem rotatePart_ok (hfaults : cfg.faults = .none) (c : Consumer) :
    ∃ log, rotatePart cfg c = .running { c with
        partId := c.next / cfg.blocksPerPart, sink := c.sink ++ log } ∧ pushes log = [] := by
  simp only [rotatePart, hfaults, ConsumeFaults.none, Bool.false_eq_true, if_false]
  by_cases hpart : c.next / cfg.blocksPerPart = c.partId
  · refine ⟨[], ?_, rfl⟩
    rw [if_pos hpart, hpart, List.append_nil]
  · refine ⟨[.finish c.partId, .create (c.next / cfg.blocksPerPart)], ?_, rfl⟩
    rw [if_neg hpart, List.append_assoc]
    rfl

/-- One round of the block loop: `apply_block` fails, or the block is applied and
pushed to its part and the consumer goes on behind it. -/
theorem applyNext_ok (hfaults : cfg.faults = .none) (block : FullBlock) (c : Consumer) :
    (∃ c' stop, applyNext cfg block c = .returned c' (.error (.utxo stop)) ∧ ApplyFailed c') ∨
    ∃ c' res, applyNext cfg block c = finishOrGo cfg c' ∧ c'.buffer = c.buffer ∧
      c'.skippedQueue = c.skippedQueue ∧ c'.next = c.next + 1 ∧
      c'.applied = c.applied ++ [(c.next, .ok res)] ∧
      pushes c'.sink = pushes c.sink ++
        [(c.next / cfg.blocksPerPart, enrich block res.fees, res.spends)] := by
  obtain ⟨log, hrotate, hlog⟩ := rotatePart_ok hfaults { c with reorderDepth := c.reorderDepth - 1 }
  have htripped : cfg.faults.tripped c.next = false := by rw [hfaults]; rfl
  have hpush : cfg.faults.push c.next = false := by rw [hfaults]; rfl
  unfold applyNext
  rw [htripped, hrotate]
  simp only [Bool.false_eq_true, if_false, applyAndPush, hpush, advance_eq hfaults]
  split
  · rename_i stop store _
    refine .inl ⟨_, stop, rfl, (c.next, .error stop), by simp, ?_⟩
    intro res
    simp
  · rename_i res store _
    refine .inr ⟨_, res, rfl, rfl, rfl, rfl, rfl, ?_⟩
    simp only [pushes_append, hlog, List.append_nil]
    rfl

/-- The block loop stops at the first height that has no block. -/
theorem drainLoop_ok (hfaults : cfg.faults = .none)
    (hexclusive : ∀ h, isSkippedAt arrived h = true → blockAt arrived h = none)
    {rounds : Nat} (h : Progress cfg start arrived c) (hlt : c.next < cfg.endHeight)
    (hrounds : c.buffer.keys.length ≤ rounds) :
    StepOk cfg start arrived
      (fun m => c.next ≤ m ∧ (∀ j, c.next ≤ j → j < m → blockAt arrived j ≠ none) ∧
        (m < cfg.endHeight → blockAt arrived m = none)) (drainLoop cfg rounds c) := by
  have hlookup : c.buffer.lookup c.next = blockAt arrived c.next := by
    rw [h.buffer, if_pos le_rfl]
  induction rounds generalizing c with
  | zero =>
      have hempty : c.buffer.lookup c.next = none := by
        rw [AList.lookup_eq_none]
        intro hmem
        have := List.length_pos_of_mem (AList.mem_keys.mp hmem)
        omega
      exact ⟨h, hlt, le_rfl, fun j h1 h2 => by omega, fun _ => hlookup ▸ hempty⟩
  | succ rounds ih =>
      rw [drainLoop]
      cases hbuf : c.buffer.lookup c.next with
      | none => exact ⟨h, hlt, le_rfl, fun j h1 h2 => by omega, fun _ => hlookup ▸ hbuf⟩
      | some block =>
          have hblock : blockAt arrived c.next = some block := hlookup ▸ hbuf
          have hskip : isSkippedAt arrived c.next = false := by
            by_contra hs
            rw [hexclusive _ (by simpa using hs)] at hblock
            contradiction
          rcases applyNext_ok hfaults block { c with buffer := c.buffer.erase c.next } with
            ⟨c', stop, hstep, hfailed⟩ | ⟨c', res, hstep, hbuffer, hqueue, hnext, happlied, hsink⟩
          · simp only [hstep]
            exact hfailed
          · have hprogress := h.block hlt hblock hskip hbuffer hqueue hnext happlied hsink
            change c'.next = c.next + 1 at hnext
            simp only [hstep]
            by_cases hend : cfg.endHeight ≤ c'.next
            · have hfin : StepOk cfg start arrived (fun m => m = c'.next) (finishOrGo cfg c') :=
                hprogress.finished hend rfl
              rw [finishOrGo, if_pos hend] at hfin ⊢
              refine hfin.imp ?_
              rintro m rfl
              refine ⟨by omega, fun j h1 h2 => ?_, fun h3 => by omega⟩
              obtain rfl : j = c.next := by omega
              simp [hblock]
            · rw [finishOrGo, if_neg hend]
              have hkeys : c'.buffer.keys.length ≤ rounds := by
                have hmem : c.next ∈ c.buffer.keys := mem_keys_of_lookup hbuf
                rw [hbuffer, AList.keys_erase, List.length_erase_of_mem hmem]
                omega
              refine (ih hprogress (by omega) hkeys ?_).imp ?_
              · rw [hprogress.buffer, if_pos le_rfl]
              · rintro m ⟨hle, hall, hlast⟩
                refine ⟨by omega, fun j h1 h2 => ?_, hlast⟩
                by_cases hj : j = c.next
                · subst hj
                  simp [hblock]
                · exact hall j (by omega) h2

/-! What receiving an item changes. -/

theorem receive_next (item : WorkItem) (c : Consumer) : (receive item c).next = c.next := by
  cases item <;> rfl

theorem receive_applied (item : WorkItem) (c : Consumer) :
    (receive item c).applied = c.applied := by
  cases item <;> rfl

theorem receive_sink (item : WorkItem) (c : Consumer) : (receive item c).sink = c.sink := by
  cases item <;> rfl

theorem receive_lookup (item : WorkItem) (c : Consumer) (a : Nat) :
    (receive item c).buffer.lookup a = (blockAt [item] a).or (c.buffer.lookup a) := by
  cases item with
  | block height block =>
      by_cases ha : a = height
      · subst ha
        simp [receive, blockAt]
      · have hne : height ≠ a := Ne.symm ha
        simp [receive, blockAt, AList.lookup_insert_ne ha, hne]
  | skipped height => simp [receive, blockAt]

theorem mem_receive_skipped (item : WorkItem) (c : Consumer) (a : Nat) :
    a ∈ (receive item c).skippedQueue ↔ a ∈ c.skippedQueue ∨ isSkippedAt [item] a = true := by
  cases item with
  | block height block => simp [receive, isSkippedAt]
  | skipped height => simp [receive, isSkippedAt, or_comm, eq_comm]

/-- A message of a height not passed yet is taken in. -/
theorem Progress.receive (h : Progress cfg start arrived c) {item : WorkItem}
    (hle : c.next ≤ item.height) (hnew : item.height ∉ arrived.map WorkItem.height) :
    Progress cfg start (arrived ++ [item]) (receive item c) := by
  have hother : ∀ a, a ≠ item.height → a ∉ [item].map WorkItem.height := by simp
  constructor
  case start_le => rw [receive_next]; exact h.start_le
  case next_le => rw [receive_next]; exact h.next_le
  case buffer =>
    intro a
    rw [receive_lookup, receive_next, h.buffer, blockAt_append]
    by_cases ha : a = item.height
    · rw [ha, if_pos hle, if_pos hle, blockAt_eq_none hnew, Option.or_none, Option.none_or]
    · rw [blockAt_eq_none (hother a ha), Option.none_or, Option.or_none]
  case skipped =>
    intro a
    rw [mem_receive_skipped, receive_next, h.skipped, isSkippedAt_append]
    by_cases ha : a = item.height
    · simp [ha, hle, isSkippedAt_eq_false hnew]
    · simp [isSkippedAt_eq_false (hother a ha)]
  case passed =>
    intro a hstart hlt
    rw [receive_next] at hlt
    rw [List.map_append]
    exact List.mem_append_left _ (h.passed a hstart hlt)
  case applied =>
    rw [receive_applied, receive_next, h.applied]
    apply List.filter_congr
    intro a ha
    rw [List.mem_range'_1] at ha
    rw [blockAt_append, blockAt_eq_none (hother a (by omega)), Option.or_none]
  case pushed =>
    rw [receive_applied, receive_sink]
    refine h.pushed.imp ?_
    rintro call push ⟨block, res, hblock, hres, rfl⟩
    refine ⟨block, res, ?_, hres, rfl⟩
    rw [blockAt_append, hblock, Option.some_or]

/-- What one message can pass: a stretch of skipped heights up to `m`, then a
stretch of blocks. -/
structure Passed (cfg : ConsumeConfig) (arrived : List WorkItem) (n m n' : Nat) : Prop where
  le_mid : n ≤ m
  mid_le : m ≤ n'
  skips : ∀ j, n ≤ j → j < m → isSkippedAt arrived j = true
  blocks : ∀ j, m ≤ j → j < n' → blockAt arrived j ≠ none
  mid_stop : m < cfg.endHeight → isSkippedAt arrived m = false
  stop : n' < cfg.endHeight → blockAt arrived n' = none

/-- One message. -/
theorem handleItem_ok (hfaults : cfg.faults = .none) {item : WorkItem}
    (hexclusive : ∀ h, isSkippedAt (arrived ++ [item]) h = true →
      blockAt (arrived ++ [item]) h = none)
    (h : Progress cfg start arrived c) (hlt : c.next < cfg.endHeight)
    (hle : c.next ≤ item.height) (hnew : item.height ∉ arrived.map WorkItem.height) :
    StepOk cfg start (arrived ++ [item])
      (fun n' => ∃ m, Passed cfg (arrived ++ [item]) c.next m n') (handleItem cfg item c) := by
  have hnext := receive_next item c
  have hskip := skipLoop_ok hfaults hexclusive (h.receive hle hnew) (by rw [hnext]; exact hlt)
    le_rfl
  rw [hnext] at hskip
  unfold handleItem
  generalize skipLoop cfg (receive item c).skippedQueue.card (receive item c) = step at hskip
  match step, hskip with
  | .running c₁, hskip =>
      obtain ⟨hprogress, hlt₁, hmid, hskips, hstop⟩ := hskip
      refine (drainLoop_ok hfaults hexclusive hprogress hlt₁ le_rfl).imp ?_
      rintro n' ⟨hle', hblocks, hlast⟩
      exact ⟨c₁.next, hmid, hle', hskips, hblocks, hstop, hlast⟩
  | .returned c₁ (.ok ()), hskip =>
      obtain ⟨hprogress, hend, hmid, hskips, hstop⟩ := hskip
      exact ⟨hprogress, hend, c₁.next, hmid, le_rfl, hskips, fun j h1 h2 => by omega, hstop,
        fun h3 => by omega⟩
  | .returned _ (.error (.utxo _)), hskip => exact hskip

end Loops

/-! ## Counting messages against crossings -/

/-- Enough messages follow every item. -/
def EnoughMessages (items : List WorkItem) (endHeight : Nat) : Prop :=
  ∀ (p : Nat) (item : WorkItem), items[p]? = some item →
    p + crossings items item.height endHeight < items.length

instance (items : List WorkItem) (endHeight : Nat) :
    Decidable (EnoughMessages items endHeight) :=
  decidable_of_iff (∀ p : Fin items.length,
      p + crossings items (items.get p).height endHeight < items.length) <| by
    constructor
    · intro h p item hp
      obtain ⟨hlt, rfl⟩ := List.getElem?_eq_some_iff.mp hp
      exact h ⟨p, hlt⟩
    · intro h p
      exact h p (items.get p) (by simp)

/-- A consumer held up at a skipped height after `t` messages is behind some item:
crossings have used up all messages since. -/
def Late (items : List WorkItem) (t n : Nat) : Prop :=
  isSkippedAt (items.take t) n = true → ∃ (p : Nat) (item : WorkItem), items[p]? = some item ∧
    p < t ∧ item.height < n ∧ t ≤ p + crossings items item.height (n + 1)

/-- After `t` messages no item has had more crossings passed above it than messages
since. -/
def Early (items : List WorkItem) (t n : Nat) : Prop :=
  ∀ (p : Nat) (item : WorkItem), items[p]? = some item → p < t →
    p + crossings items item.height n + 1 ≤ t

section Timing

variable {cfg : ConsumeConfig} {start : Nat} {items arrived rest : List WorkItem}
  {item : WorkItem} {n m n' : Nat}

theorem isSkippedAt_append_left {h : Nat} (hs : isSkippedAt arrived h = true) (rest : List WorkItem) :
    isSkippedAt (arrived ++ rest) h = true := by
  rw [isSkippedAt_append, hs, Bool.true_or]

theorem blockAt_append_left {h : Nat} (hb : blockAt arrived h ≠ none) (rest : List WorkItem) :
    blockAt (arrived ++ rest) h ≠ none := by
  obtain ⟨block, hblock⟩ := Option.ne_none_iff_exists'.mp hb
  simp [blockAt_append, hblock]

/-- One message passes a crossing only at the height it starts from. -/
theorem Passed.no_crossing (arr : Arrivals start cfg.endHeight (arrived ++ rest))
    (passed : Passed cfg arrived n m n') {j : Nat} (hlt : n < j) (hj : j < n') :
    isCrossing (arrived ++ rest) j = false := by
  by_contra hcross
  rw [Bool.not_eq_false, isCrossing, Bool.and_eq_true] at hcross
  obtain ⟨hblock, hskip⟩ := hcross
  by_cases hjm : j ≤ m
  · -- The height below is skipped, not a block.
    have hbelow := passed.skips (j - 1) (by omega) (by omega)
    rw [arr.exclusive (isSkippedAt_append_left hbelow rest)] at hblock
    contradiction
  · -- The height itself is a block, not skipped.
    exact blockAt_append_left (passed.blocks j (by omega) hj) rest (arr.exclusive hskip)

theorem Early.step (arr : Arrivals start cfg.endHeight (arrived ++ item :: rest))
    (early : Early (arrived ++ item :: rest) arrived.length n) (hle : n ≤ item.height)
    (passed : Passed cfg (arrived ++ [item]) n m n') :
    Early (arrived ++ item :: rest) (arrived.length + 1) n' := by
  have hsplit : arrived ++ item :: rest = arrived ++ [item] ++ rest := by simp
  have hnone : ∀ j, n < j → j < n' → isCrossing (arrived ++ item :: rest) j = false := by
    intro j h1 h2
    rw [hsplit] at arr ⊢
    exact passed.no_crossing arr h1 h2
  have hnn' : n ≤ n' := passed.le_mid.trans passed.mid_le
  intro p item' hp hlt
  by_cases hpt : p = arrived.length
  · -- The item just received: nothing above its height has been passed.
    subst hpt
    obtain rfl : item = item' := by simpa using hp
    have hzero : crossings (arrived ++ item :: rest) item.height n' =
        crossings (arrived ++ item :: rest) item.height 0 :=
      crossings_eq_of_none (Nat.zero_le _) fun j _ h2 h3 => hnone j (by omega) h2
    have : crossings (arrived ++ item :: rest) item.height 0 = 0 := rfl
    omega
  · have hold := early p item' hp (by omega)
    by_cases hsame : n = n'
    · subst hsame
      omega
    · have hrest : crossings (arrived ++ item :: rest) item'.height n' =
          crossings (arrived ++ item :: rest) item'.height (n + 1) :=
        crossings_eq_of_none (by omega) fun j h1 h2 _ => hnone j (by omega) h2
      rw [hrest, crossings_succ]
      split_ifs <;> omega

theorem Late.step (late : Late (arrived ++ item :: rest) arrived.length n)
    (hblock : blockAt arrived n = none) (hend : n' < cfg.endHeight)
    (harrived : ∀ j, n ≤ j → j < n' → j ∈ (arrived ++ [item]).map WorkItem.height)
    (passed : Passed cfg (arrived ++ [item]) n m n') :
    Late (arrived ++ item :: rest) (arrived.length + 1) n' := by
  have hsplit : arrived ++ item :: rest = arrived ++ [item] ++ rest := by simp
  have htake : (arrived ++ item :: rest).take (arrived.length + 1) = arrived ++ [item] := by
    rw [hsplit, List.take_left' (by simp)]
  intro hskip
  rw [htake] at hskip
  have hmn' : m < n' := by
    rcases Nat.lt_or_ge m n' with hlt | hge
    · exact hlt
    · obtain rfl : m = n' := Nat.le_antisymm passed.mid_le hge
      rw [passed.mid_stop hend] at hskip
      contradiction
  have hnn' : n < n' := Nat.lt_of_le_of_lt passed.le_mid hmn'
  have hcross : isCrossing (arrived ++ item :: rest) n' = true := by
    have hbelow := blockAt_append_left (passed.blocks (n' - 1) (by omega) (by omega)) rest
    rw [← hsplit] at hbelow
    rw [isCrossing, Bool.and_eq_true, Option.isSome_iff_ne_none, hsplit]
    exact ⟨hsplit ▸ hbelow, isSkippedAt_append_left hskip rest⟩
  by_cases hthere : n ∈ arrived.map WorkItem.height
  · -- Held up at `n` already: one more message, one more crossing.
    have hskipn : isSkippedAt arrived n = true :=
      (blockAt_or_skipped hthere).resolve_left (fun hne => hne hblock)
    have hlate := late
    rw [Late, List.take_left' rfl] at hlate
    obtain ⟨p, item', hp, hlt, hheight, hbound⟩ := hlate hskipn
    refine ⟨p, item', hp, by omega, by omega, ?_⟩
    rw [crossings_succ, if_pos ⟨by omega, hcross⟩]
    have hmono := crossings_mono (arrived ++ item :: rest) item'.height
      (by omega : n + 1 ≤ n')
    omega
  · -- Waiting for `n`, which is the item just received.
    have hn := harrived n le_rfl hnn'
    rw [List.map_append, List.mem_append] at hn
    have hitem : n = item.height := by simpa using hn.resolve_left hthere
    refine ⟨arrived.length, item, by simp, by omega, by omega, ?_⟩
    rw [crossings_succ, if_pos ⟨by omega, hcross⟩]
    omega

end Timing

/-! ## The whole run -/

/-- The rows of an `apply_block` call: those of its block, with the fees, and its spends. -/
def callRows (items : List WorkItem) (call : Nat × Except (Stop UtxoError) SpendResult) : Rows :=
  match blockAt items call.1, call.2 with
  | some block, .ok res => .ofBlock (enrich block res.fees) res.spends
  | _, _ => .empty

/-- The rows of the calls for the heights of a part. -/
def filedRows (cfg : ConsumeConfig) (items : List WorkItem)
    (calls : List (Nat × Except (Stop UtxoError) SpendResult)) (part : Nat) : Rows :=
  .flatten ((calls.filter fun call => call.1 / cfg.blocksPerPart = part).map (callRows items))

/-- What `consume_ordered` should do with one item for every height: each block is applied
once, its rows are pushed once, and what the part files hold in the end is, for every part,
the rows of the blocks of its heights. -/
structure ConsumedInOrder (cfg : ConsumeConfig) (items : List WorkItem)
    (run : Consumer × Except ConsumeStop Unit) : Prop where
  returned : run.2 = .ok ()
  increasing : (run.1.applied.map Prod.fst).Pairwise (· < ·)
  blocks : ∀ h, h ∈ run.1.applied.map Prod.fst ↔ ∃ block, .block h block ∈ items
  pushed : List.Forall₂ (IsPushOf cfg items) run.1.applied (pushes run.1.sink)
  filed : ∀ (dir : OutDir), ∀ call ∈ run.1.applied,
    dir.after run.1.sink (call.1 / cfg.blocksPerPart) =
      filedRows cfg items run.1.applied (call.1 / cfg.blocksPerPart)
  -- The part of the first height is created even when none of its blocks is kept.
  others : ∀ (dir : OutDir) (part : Nat),
    (∀ call ∈ run.1.applied, call.1 / cfg.blocksPerPart ≠ part) →
      dir.after run.1.sink part = dir part ∨ dir.after run.1.sink part = .empty

/-- What a run over all items may end with. -/
def RunOk (cfg : ConsumeConfig) (start : Nat) (items : List WorkItem) :
    Consumer × Except ConsumeStop Unit → Prop
  | (c, .ok ()) =>
      Progress cfg start items c ∧ c.next = cfg.endHeight ∧ EnoughMessages items cfg.endHeight
  | (_, .error (.channelClosedEarly _ _)) => ¬EnoughMessages items cfg.endHeight
  | (c, .error (.utxo _)) => ApplyFailed c
  | (_, .error _) => False

section Run

variable {cfg : ConsumeConfig} {start : Nat} {items arrived rest : List WorkItem}
  {item : WorkItem} {c : Consumer} {n : Nat}

theorem blockAt_of_mem (arr : Arrivals start cfg.endHeight items) {block : FullBlock}
    (hmem : .block n block ∈ items) : blockAt items n = some block := by
  have hheight : n ∈ items.map WorkItem.height := List.mem_map_of_mem hmem
  rcases blockAt_or_skipped hheight with hne | hskip
  · obtain ⟨block', hblock⟩ := Option.ne_none_iff_exists'.mp hne
    have heq := List.inj_on_of_nodup_map arr.nodup (mem_of_blockAt hblock) hmem rfl
    cases heq
    exact hblock
  · have heq := List.inj_on_of_nodup_map arr.nodup (mem_of_isSkippedAt hskip) hmem rfl
    cases heq

/-- When the items run out below the last height, the consumer is held up at a
skipped one. -/
theorem Late.not_enough (arr : Arrivals start cfg.endHeight items)
    (late : Late items items.length n) (hstart : start ≤ n) (hlt : n < cfg.endHeight)
    (hblock : blockAt items n = none) : ¬EnoughMessages items cfg.endHeight := by
  intro henough
  have hskip : isSkippedAt items n = true :=
    (blockAt_or_skipped (arr.mem_heights.mpr ⟨hstart, hlt⟩)).resolve_left fun hne => hne hblock
  rw [Late, List.take_length] at late
  obtain ⟨p, item, hp, -, -, hbound⟩ := late hskip
  have hmono := crossings_mono items item.height (show n + 1 ≤ cfg.endHeight from hlt)
  have := henough p item hp
  omega

/-- A new item is for a height the consumer has not passed. -/
theorem Progress.next_le_height (h : Progress cfg start arrived c)
    (arr : Arrivals start cfg.endHeight (arrived ++ item :: rest)) :
    item.height ∉ arrived.map WorkItem.height ∧ c.next ≤ item.height := by
  have hnodup := arr.nodup
  rw [List.map_append, List.nodup_append] at hnodup
  have hnew : item.height ∉ arrived.map WorkItem.height := by
    intro hmem
    exact hnodup.2.2 _ hmem _ (by simp) rfl
  refine ⟨hnew, ?_⟩
  have hmem : item.height ∈ (arrived ++ item :: rest).map WorkItem.height := by simp
  by_contra hlt
  exact hnew (h.passed _ (arr.mem_heights.mp hmem).1 (by omega))

/-- A consumer at the last height has received everything. -/
theorem Progress.rest_eq_nil (h : Progress cfg start arrived c)
    (arr : Arrivals start cfg.endHeight (arrived ++ rest)) (hend : c.next = cfg.endHeight) :
    rest = [] := by
  cases rest with
  | nil => rfl
  | cons item rest =>
      have hle := (h.next_le_height arr).2
      have hmem : item.height ∈ (arrived ++ item :: rest).map WorkItem.height := by simp
      have := (arr.mem_heights.mp hmem).2
      omega

/-- The run lemma: from a consumer that is in order and neither late nor early. -/
theorem consumeLoop_ok (hfaults : cfg.faults = .none)
    (arr : Arrivals start cfg.endHeight (arrived ++ rest)) (h : Progress cfg start arrived c)
    (hlt : c.next < cfg.endHeight) (hblock : blockAt arrived c.next = none)
    (late : Late (arrived ++ rest) arrived.length c.next)
    (early : Early (arrived ++ rest) arrived.length c.next) :
    RunOk cfg start (arrived ++ rest) (consumeLoop cfg rest c) := by
  induction rest generalizing arrived c with
  | nil =>
      have hfinish : cfg.faults.finish c.partId = false := by rw [hfaults]; rfl
      rw [List.append_nil] at arr late ⊢
      simp only [consumeLoop, finishSink, hfinish, Bool.false_eq_true, if_false, hlt, if_true]
      exact late.not_enough arr h.start_le hlt hblock
  | cons item rest ih =>
      have hsplit : arrived ++ item :: rest = arrived ++ [item] ++ rest := by simp
      obtain ⟨hnew, hle⟩ := h.next_le_height arr
      have hexclusive : ∀ a, isSkippedAt (arrived ++ [item]) a = true →
          blockAt (arrived ++ [item]) a = none := by
        intro a hs
        have hnone := arr.exclusive (hsplit ▸ isSkippedAt_append_left hs rest)
        rw [hsplit, blockAt_append, Option.or_eq_none_iff] at hnone
        exact hnone.1
      have hstep := handleItem_ok hfaults hexclusive h hlt hle hnew
      have hlength : (arrived ++ [item]).length = arrived.length + 1 := by simp
      rw [consumeLoop]
      generalize handleItem cfg item c = step at hstep
      rcases step with c' | ⟨c', stop | ⟨⟩⟩
      · obtain ⟨hprogress, hlt', m, hpassed⟩ := hstep
        have harrived : ∀ j, c.next ≤ j → j < c'.next →
            j ∈ (arrived ++ [item]).map WorkItem.height := fun j h1 h2 =>
          hprogress.passed j (h.start_le.trans h1) h2
        have hlate := late.step hblock hlt' harrived hpassed
        have hearly := early.step arr hle hpassed
        rw [hsplit] at arr hlate hearly ⊢
        exact ih arr hprogress hlt' (hpassed.stop hlt') (hlength ▸ hlate) (hlength ▸ hearly)
      · cases stop with
        | utxo stop => exact hstep
        | _ => exact hstep.elim
      · obtain ⟨hprogress, hend, m, hpassed⟩ := hstep
        have hearly := early.step arr hle hpassed
        rw [hsplit] at arr hearly ⊢
        obtain rfl := hprogress.rest_eq_nil arr hend
        rw [List.append_nil] at hearly ⊢
        refine ⟨hprogress, hend, fun p item' hp => ?_⟩
        have hp' : p < (arrived ++ [item]).length := (List.getElem?_eq_some_iff.mp hp).1
        have := hearly p item' hp (hlength ▸ hp')
        rw [hend] at this
        omega

theorem Progress.initial (cfg : ConsumeConfig) (store : UtxoStore)
    (hlt : start < cfg.endHeight) :
    Progress cfg start [] (initialConsumer cfg start store) := by
  constructor
  case start_le => exact le_rfl
  case next_le => exact hlt.le
  case buffer =>
    intro a
    rw [show blockAt [] a = none from rfl, ite_self]
    exact AList.lookup_empty a
  case skipped =>
    intro a
    simp [initialConsumer, isSkippedAt]
  case passed =>
    intro a h1 h2
    change a < start at h2
    omega
  case applied => simp [initialConsumer]
  case pushed => exact .nil

theorem consumeOrdered_ok (store : UtxoStore) (hfaults : cfg.faults = .none)
    (arr : Arrivals start cfg.endHeight items) :
    RunOk cfg start items (consumeOrdered cfg start store items) := by
  have hcreate : cfg.faults.create (start / cfg.blocksPerPart) = false := by rw [hfaults]; rfl
  rw [consumeOrdered, hcreate]
  change RunOk cfg start ([] ++ items) (consumeLoop cfg items (initialConsumer cfg start store))
  refine consumeLoop_ok hfaults arr (.initial cfg store arr.start_lt) arr.start_lt rfl ?_ ?_
  · intro hskip
    contradiction
  · intro p item hp hlt
    contradiction

/-- Each call has its push. -/
theorem exists_push {calls : List (Nat × Except (Stop UtxoError) SpendResult)}
    {ps : List (Nat × FullBlock × List SpendRow)}
    (h : List.Forall₂ (IsPushOf cfg items) calls ps) :
    ∀ call ∈ calls, ∃ push ∈ ps, push.1 = call.1 / cfg.blocksPerPart := by
  induction h with
  | nil => exact fun _ hmem => absurd hmem List.not_mem_nil
  | cons hpush _ ih =>
      obtain ⟨block, res, -, -, rfl⟩ := hpush
      refine List.forall_mem_cons.mpr ⟨⟨_, List.mem_cons_self, rfl⟩, fun call hcall => ?_⟩
      obtain ⟨push, hpush, heq⟩ := ih call hcall
      exact ⟨push, List.mem_cons_of_mem _ hpush, heq⟩

/-- The rows pushed for a part are those of the calls for its heights. -/
theorem pushedRows_eq_filedRows {calls : List (Nat × Except (Stop UtxoError) SpendResult)}
    {log : List SinkEvent} (h : List.Forall₂ (IsPushOf cfg items) calls (pushes log))
    (part : Nat) : pushedRows part log = filedRows cfg items calls part := by
  rw [pushedRows, filedRows]
  congr 1
  generalize pushes log = ps at h
  induction h with
  | nil => rfl
  | @cons call push calls ps hpush _ ih =>
      obtain ⟨block, res, hblock, hres, rfl⟩ := hpush
      have hrows : callRows items call = .ofBlock (enrich block res.fees) res.spends := by
        rw [callRows, hblock, hres]
      by_cases hpart : call.1 / cfg.blocksPerPart = part
      · rw [List.filter_cons_of_pos (by simpa using hpart),
          List.filter_cons_of_pos (by simpa using hpart), List.map_cons, List.map_cons, ih, hrows]
      · rw [List.filter_cons_of_neg (by simpa using hpart),
          List.filter_cons_of_neg (by simpa using hpart), ih]

theorem Progress.consumedInOrder (h : Progress cfg start items c)
    (arr : Arrivals start cfg.endHeight items) (hend : c.next = cfg.endHeight)
    (hclosed : ClosedLog c.sink) : ConsumedInOrder cfg items (c, .ok ()) where
  returned := rfl
  increasing := by
    simp only [h.applied]
    exact List.Pairwise.filter _ List.pairwise_lt_range'
  blocks := by
    intro a
    simp only [h.applied, List.mem_filter, List.mem_range'_1, Option.isSome_iff_exists]
    constructor
    · rintro ⟨-, block, hblock⟩
      exact ⟨block, mem_of_blockAt hblock⟩
    · rintro ⟨block, hmem⟩
      have hrange := arr.mem_heights.mp (List.mem_map_of_mem hmem)
      simp only [WorkItem.height] at hrange
      exact ⟨by omega, block, blockAt_of_mem arr hmem⟩
  pushed := h.pushed
  filed := by
    intro dir call hcall
    obtain ⟨push, hpush, heq⟩ := exists_push h.pushed call hcall
    show dir.after c.sink _ = _
    rw [hclosed.files, ← heq, if_pos (hclosed.pushed _ hpush),
      pushedRows_eq_filedRows h.pushed]
  others := by
    intro dir part hnone
    show dir.after c.sink part = _ ∨ dir.after c.sink part = _
    rw [hclosed.files]
    split
    · right
      rw [pushedRows_eq_filedRows h.pushed, filedRows, List.filter_eq_nil_iff.mpr]
      · rfl
      · intro call hcall
        simpa using hnone call hcall
    · exact .inl rfl

end Run

/-- With one item for every height and no failing call, the consumer gets through,
in height order and with every block pushed to its part, exactly when enough
messages follow every item. -/
theorem consumeOrdered_iff_enoughMessages (cfg : ConsumeConfig) (start : Nat)
    (store : UtxoStore) (items : List WorkItem) (_hparts : 1 ≤ cfg.blocksPerPart)
    (hfaults : cfg.faults = .none) (arr : Arrivals start cfg.endHeight items)
    (happly : ∀ call ∈ (consumeOrdered cfg start store items).1.applied,
      ∃ res, call.2 = .ok res) :
    ConsumedInOrder cfg items (consumeOrdered cfg start store items) ↔
      EnoughMessages items cfg.endHeight := by
  have hrun := consumeOrdered_ok store hfaults arr
  have hclosed : (consumeOrdered cfg start store items).2 = .ok () → _ :=
    consumeOrdered_closedLog start store items
  generalize consumeOrdered cfg start store items = run at hrun happly hclosed
  match run, hrun with
  | (c, .ok ()), ⟨hprogress, hend, henough⟩ =>
      exact iff_of_true (hprogress.consumedInOrder arr hend (hclosed rfl)) henough
  | (c, .error (.channelClosedEarly _ _)), hnot =>
      refine iff_of_false ?_ hnot
      intro hconsumed
      cases hconsumed.returned
  | (c, .error (.utxo _)), ⟨call, hmem, hfailed⟩ =>
      obtain ⟨res, hres⟩ := happly call hmem
      exact absurd hres (hfailed res)

/-! Heights 0 to 2, of which height 1 is skipped, with the last two swapped; and
heights 0 and 1 with the skip marker of height 1 first. -/

/-- A block of one transaction that creates one output. -/
def sampleBlock (height : UInt32) (txid : Nat) : FullBlock where
  blockRow := {
    height
    hash := wordBytes 32 txid
    prevHash := zeroBytes 32
    merkleRoot := zeroBytes 32
    time := 0
    bits := 0
    nonce := 0
    version := 1
    txCount := 1
    size := 0
    weight := 0
    totalFee := 0
    coinbaseValue := 50 }
  txs := [sampleTx 0 txid]
  inputs := [{ sampleSpend 0 0 with prevVout := 0xFFFFFFFF, isCoinbase := true }]
  outputs := [sampleOutput 0 txid 50]

def sampleConfig (endHeight : Nat) : ConsumeConfig where
  endHeight
  blocksPerPart := 2
  faults := .none
  orders _ := .stored _ _

theorem consumeOrdered_iff_enoughMessages_sample :
    ConsumedInOrder (sampleConfig 3)
      [.block 0 (sampleBlock 0 1), .block 2 (sampleBlock 2 2), .skipped 1]
      (consumeOrdered (sampleConfig 3) 0 (.openBulk sampleDb)
        [.block 0 (sampleBlock 0 1), .block 2 (sampleBlock 2 2), .skipped 1]) := by
  refine (consumeOrdered_iff_enoughMessages (sampleConfig 3) 0 (.openBulk sampleDb) _
    (by decide) rfl ⟨by decide, by decide⟩ ?_).mpr (by decide +kernel)
  have hall : ((consumeOrdered (sampleConfig 3) 0 (.openBulk sampleDb)
      [.block 0 (sampleBlock 0 1), .block 2 (sampleBlock 2 2), .skipped 1]).1.applied.all
        fun call => call.2.isOk) = true := by decide +kernel
  intro call hcall
  have hok := List.all_eq_true.mp hall call hcall
  match call, hok with
  | (_, .ok res), _ => exact ⟨res, rfl⟩

/-- The marker of height 1 arrives before the block of height 0: the block loop
stops at height 1, and no further message lets the skip loop pass it. -/
theorem consumeOrdered_skip_before_block_closes_early :
    Arrivals 0 (sampleConfig 2).endHeight [.skipped 1, .block 0 (sampleBlock 0 1)] ∧
      (∀ call ∈ (consumeOrdered (sampleConfig 2) 0 (.openBulk sampleDb)
        [.skipped 1, .block 0 (sampleBlock 0 1)]).1.applied, call.2.isOk = true) ∧
      (consumeOrdered (sampleConfig 2) 0 (.openBulk sampleDb)
        [.skipped 1, .block 0 (sampleBlock 0 1)]).2 = .error (.channelClosedEarly 1 2) ∧
      ¬ConsumedInOrder (sampleConfig 2) [.skipped 1, .block 0 (sampleBlock 0 1)]
        (consumeOrdered (sampleConfig 2) 0 (.openBulk sampleDb)
          [.skipped 1, .block 0 (sampleBlock 0 1)]) := by
  have hresult : (consumeOrdered (sampleConfig 2) 0 (.openBulk sampleDb)
      [.skipped 1, .block 0 (sampleBlock 0 1)]).2 = .error (.channelClosedEarly 1 2) := by
    decide +kernel
  refine ⟨⟨by decide, by decide⟩, by decide +kernel, hresult, ?_⟩
  intro hconsumed
  have hreturned := hconsumed.returned
  rw [hresult] at hreturned
  contradiction

end Bidx
