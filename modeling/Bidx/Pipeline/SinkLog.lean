import Bidx.Pipeline.Consume
import Bidx.Store.Parquet

/-!
# What the calls to the sink leave

The consumer logs its calls to the sink.  `SinkFiles` carries the part files of an output
directory through such a log: a push goes to the part that is open, whatever part the
caller has in mind, creating a part empties its files, and rows are on disk once their
part is finished.

A log that finishes each part before it creates the next, creates no part twice and
pushes rows for the open part only (`OpenPart`) loses nothing: closed, it leaves in every
part it created the rows pushed for it, and every other part as it was (`ClosedLog`).
Every run of the consumer that returns has made such a log, since its heights only grow.
-/

namespace Bidx

open KeyValue

/-! ## The files -/

/-- The part files and the sink that has some of them open. -/
structure SinkFiles where
  dir : OutDir
  sink : Option ParquetSink

/-- What a call to the sink does to the files. -/
def SinkFiles.handle (f : SinkFiles) : SinkEvent → SinkFiles
  | .create part =>
      let created := ParquetSink.create f.dir part .standard
      ⟨created.1, some created.2⟩
  -- Rows are on disk only once the part is finished.
  | .push _ block spends => { f with sink := f.sink.map fun s => s.pushRows block spends }
  | .finish _ =>
      match f.sink with
      | some s => ⟨s.finish f.dir, none⟩
      | none => f

/-- The output directory after the calls of a run. -/
def OutDir.after (dir : OutDir) (calls : List SinkEvent) : OutDir :=
  (calls.foldl SinkFiles.handle ⟨dir, none⟩).dir

/-! ## Reading a log -/

/-- The pushes of a sink log: part, block and spend rows. -/
def pushes (log : List SinkEvent) : List (Nat × FullBlock × List SpendRow) :=
  log.filterMap fun e =>
    match e with
    | .push part block spends => some (part, block, spends)
    | .create _ => none
    | .finish _ => none

/-- The parts a sink log creates. -/
def createdParts (log : List SinkEvent) : List Nat :=
  log.filterMap fun e =>
    match e with
    | .create part => some part
    | .push _ _ _ => none
    | .finish _ => none

/-- The rows a sink log pushes for a part. -/
def pushedRows (part : Nat) (log : List SinkEvent) : Rows :=
  .flatten (((pushes log).filter fun e => e.1 = part).map fun e => .ofBlock e.2.1 e.2.2)

@[simp] theorem pushes_append (log log' : List SinkEvent) :
    pushes (log ++ log') = pushes log ++ pushes log' := List.filterMap_append

@[simp] theorem createdParts_append (log log' : List SinkEvent) :
    createdParts (log ++ log') = createdParts log ++ createdParts log' := List.filterMap_append

theorem pushedRows_append (part : Nat) (log log' : List SinkEvent) :
    pushedRows part (log ++ log') = pushedRows part log ++ pushedRows part log' := by
  rw [pushedRows, pushes_append, List.filter_append, List.map_append, Rows.flatten_append]
  rfl

theorem pushedRows_eq_empty {part : Nat} {log : List SinkEvent}
    (h : ∀ e ∈ pushes log, e.1 ≠ part) : pushedRows part log = .empty := by
  have hfilter : (pushes log).filter (fun e => e.1 = part) = [] :=
    List.filter_eq_nil_iff.mpr fun e he => by simpa using h e he
  rw [pushedRows, hfilter]
  rfl

theorem pushedRows_push (part : Nat) (block : FullBlock) (spends : List SpendRow) :
    pushedRows part [.push part block spends] = .ofBlock block spends := by
  rw [pushedRows, show pushes [.push part block spends] = [(part, block, spends)] from rfl,
    List.filter_cons_of_pos (by simp)]
  exact Rows.append_empty _

/-! ## Logs that lose nothing -/

/-- A log with a part open: the open sink has the rows pushed for that part, and the files
of every other part it created hold the rows pushed for them. -/
structure OpenPart (log : List SinkEvent) (part : Nat) : Prop where
  sink : ∀ dir : OutDir, ∃ s, (log.foldl SinkFiles.handle ⟨dir, none⟩).sink = some s ∧
    s.part = part ∧ s.rows = pushedRows part log
  closed : ∀ (dir : OutDir) (p : Nat), p ≠ part →
    (log.foldl SinkFiles.handle ⟨dir, none⟩).dir p =
      if p ∈ createdParts log then pushedRows p log else dir p
  created : part ∈ createdParts log
  pushed : ∀ e ∈ pushes log, e.1 ∈ createdParts log

/-- A log that has closed its parts: the files of those it created hold the rows pushed for
them. -/
structure ClosedLog (log : List SinkEvent) : Prop where
  files : ∀ (dir : OutDir) (p : Nat), dir.after log p =
    if p ∈ createdParts log then pushedRows p log else dir p
  pushed : ∀ e ∈ pushes log, e.1 ∈ createdParts log

section Logs

variable {log : List SinkEvent} {part : Nat}

theorem OpenPart.create (part : Nat) : OpenPart [.create part] part where
  sink _ := ⟨_, rfl, rfl, rfl⟩
  closed dir p hp := by
    rw [if_neg (by simpa [createdParts] using hp)]
    exact Function.update_of_ne hp _ _
  created := List.mem_singleton_self part
  pushed _ he := nomatch he

/-- Finishing the open part closes its files. -/
theorem OpenPart.finish (h : OpenPart log part) (event : Nat) (dir : OutDir) (p : Nat) :
    dir.after (log ++ [.finish event]) p =
      if p ∈ createdParts log then pushedRows p log else dir p := by
  obtain ⟨s, hs, hpart, hrows⟩ := h.sink dir
  rw [OutDir.after, List.foldl_append]
  show ((log.foldl SinkFiles.handle ⟨dir, none⟩).handle (.finish event)).dir p = _
  simp only [SinkFiles.handle, hs]
  rw [ParquetSink.finish_eq, hpart, hrows, Function.update_apply]
  by_cases hp : p = part
  · rw [if_pos hp, hp, if_pos h.created]
  · rw [if_neg hp, h.closed dir p hp]

theorem OpenPart.closedLog (h : OpenPart log part) (event : Nat) :
    ClosedLog (log ++ [.finish event]) := by
  have hcreated : createdParts (log ++ [.finish event]) = createdParts log := by
    rw [createdParts_append]
    exact List.append_nil _
  have hpushes : pushes (log ++ [.finish event]) = pushes log := by
    rw [pushes_append]
    exact List.append_nil _
  constructor
  · intro dir p
    rw [h.finish event dir p, hcreated, pushedRows, pushedRows, hpushes]
  · rw [hcreated, hpushes]
    exact h.pushed

/-- Moving on to a part that was not created before. -/
theorem OpenPart.rotate (h : OpenPart log part) (event : Nat) {next : Nat}
    (hnew : next ∉ createdParts log) :
    OpenPart (log ++ [.finish event] ++ [.create next]) next := by
  have hcreated : createdParts (log ++ [.finish event] ++ [.create next]) =
      createdParts log ++ [next] := by
    simp [createdParts]
  have hpushes : pushes (log ++ [.finish event] ++ [.create next]) = pushes log := by
    simp [pushes]
  -- The files after the call to `finish`, and then those of the new part emptied.
  have hdir : ∀ dir : OutDir,
      (List.foldl SinkFiles.handle ⟨dir, none⟩ (log ++ [.finish event] ++ [.create next])).dir =
        Function.update (dir.after (log ++ [.finish event])) next .empty := by
    intro dir
    rw [List.foldl_append]
    rfl
  constructor
  case sink =>
    intro dir
    rw [List.foldl_append]
    refine ⟨_, rfl, rfl, ?_⟩
    rw [pushedRows, hpushes]
    refine (pushedRows_eq_empty fun e he heq => ?_).symm
    exact hnew (heq ▸ h.pushed e he)
  case closed =>
    intro dir p hp
    rw [hdir, Function.update_of_ne hp, h.finish, hcreated, pushedRows, pushedRows, hpushes]
    exact if_congr (by simp [hp]) rfl rfl
  case created =>
    rw [hcreated]
    exact List.mem_append_right _ (List.mem_singleton_self next)
  case pushed =>
    intro e he
    rw [hpushes] at he
    rw [hcreated]
    exact List.mem_append_left _ (h.pushed e he)

/-- Pushing a block's rows for the open part. -/
theorem OpenPart.push (h : OpenPart log part) (block : FullBlock) (spends : List SpendRow) :
    OpenPart (log ++ [.push part block spends]) part := by
  have hcreated : createdParts (log ++ [.push part block spends]) = createdParts log := by
    rw [createdParts_append]
    exact List.append_nil _
  constructor
  case sink =>
    intro dir
    obtain ⟨s, hs, hpart, hrows⟩ := h.sink dir
    rw [List.foldl_append]
    refine ⟨s.pushRows block spends, ?_, ?_, ?_⟩
    · simp only [List.foldl_cons, List.foldl_nil, SinkFiles.handle, hs, Option.map_some]
    · rw [ParquetSink.part_pushRows, hpart]
    · rw [ParquetSink.rows_pushRows, hrows, pushedRows_append, pushedRows_push]
  case closed =>
    intro dir p hp
    have hother : pushedRows p [.push part block spends] = .empty :=
      pushedRows_eq_empty fun e he => by
        obtain rfl := List.mem_singleton.mp he
        exact Ne.symm hp
    rw [List.foldl_append, hcreated, pushedRows_append, hother, Rows.append_empty]
    exact h.closed dir p hp
  case created => rw [hcreated]; exact h.created
  case pushed =>
    intro e he
    rw [pushes_append, List.mem_append] at he
    rw [hcreated]
    rcases he with he | he
    · exact h.pushed e he
    · obtain rfl := List.mem_singleton.mp he
      exact h.created

end Logs

/-! ## The consumer's log -/

/-- The open part is the highest one created, and not above the part of the next height. -/
structure Filing (cfg : ConsumeConfig) (c : Consumer) : Prop where
  openPart : OpenPart c.sink c.partId
  highest : ∀ p ∈ createdParts c.sink, p ≤ c.partId
  le : c.partId ≤ c.next / cfg.blocksPerPart

/-- What is asked of a return: without an error every part is closed. -/
def ReturnsClosed (c : Consumer) (result : Except ConsumeStop Unit) : Prop :=
  result = .ok () → ClosedLog c.sink

section Consumer

variable {cfg : ConsumeConfig} {c : Consumer}

theorem returnsClosed_error (c : Consumer) (stop : ConsumeStop) :
    ReturnsClosed c (.error stop) := by
  intro hok
  contradiction

theorem finishSink_filed (h : OpenPart c.sink c.partId) :
    (finishSink cfg c).Within (Filing cfg) ReturnsClosed := by
  unfold finishSink
  split
  · exact returnsClosed_error _ _
  · exact fun _ => h.closedLog c.partId

theorem advance_filed (h : Filing cfg c) : (advance cfg c).Within (Filing cfg) ReturnsClosed := by
  unfold advance
  split
  · exact returnsClosed_error _ _
  · split
    · exact finishSink_filed h.openPart
    · refine ⟨h.openPart, h.highest, h.le.trans ?_⟩
      exact Nat.div_le_div_right (Nat.le_succ _)

/-- The part of a new height is above all parts created so far. -/
theorem rotatePart_filed (h : Filing cfg c) :
    (∃ c' stop, rotatePart cfg c = .returned c' (.error stop)) ∨
      ∃ c', rotatePart cfg c = .running c' ∧ Filing cfg c' := by
  unfold rotatePart
  by_cases hsame : c.next / cfg.blocksPerPart = c.partId
  · rw [if_pos hsame]
    exact .inr ⟨c, rfl, h⟩
  · have hnew : c.next / cfg.blocksPerPart ∉ createdParts c.sink := by
      intro hmem
      exact hsame (Nat.le_antisymm (h.highest _ hmem) h.le)
    rw [if_neg hsame]
    by_cases hfinish : cfg.faults.finish c.partId = true
    · rw [if_pos hfinish]
      exact .inl ⟨_, _, rfl⟩
    · rw [if_neg hfinish]
      dsimp only
      by_cases hcreate : cfg.faults.create (c.next / cfg.blocksPerPart) = true
      · rw [if_pos hcreate]
        exact .inl ⟨_, _, rfl⟩
      · rw [if_neg hcreate]
        refine .inr ⟨_, rfl, h.openPart.rotate c.partId hnew, fun p hp => ?_, le_rfl⟩
        have hsplit : p ∈ createdParts c.sink ∨ p = c.next / cfg.blocksPerPart := by
          simpa [createdParts] using hp
        rcases hsplit with hold | rfl
        · exact (h.highest p hold).trans h.le
        · exact le_rfl

theorem applyAndPush_filed (h : Filing cfg c) (block : FullBlock) :
    (applyAndPush cfg block c).Within (Filing cfg) ReturnsClosed := by
  unfold applyAndPush
  split
  · exact returnsClosed_error _ _
  · dsimp only
    split
    · exact returnsClosed_error _ _
    · refine advance_filed ⟨h.openPart.push _ _, fun p hp => ?_, h.le⟩
      refine h.highest p ?_
      simpa [createdParts] using hp

theorem applyNext_filed (h : Filing cfg c) (block : FullBlock) :
    (applyNext cfg block c).Within (Filing cfg) ReturnsClosed := by
  unfold applyNext
  split
  · exact returnsClosed_error _ _
  · have hbefore : Filing cfg { c with reorderDepth := c.reorderDepth - 1 } :=
      ⟨h.openPart, h.highest, h.le⟩
    rcases rotatePart_filed hbefore with ⟨c', stop, hstep⟩ | ⟨c', hstep, hfiling⟩
    · rw [hstep]
      exact returnsClosed_error _ _
    · rw [hstep]
      exact applyAndPush_filed hfiling block

/-- Every round files its rows in the part of its height. -/
theorem filing_invariant (cfg : ConsumeConfig) :
    LoopInvariant cfg (Filing cfg) ReturnsClosed where
  skip c h _ := by
    refine advance_filed ?_
    exact ⟨h.openPart, h.highest, h.le⟩
  block c block h _ := by
    refine applyNext_filed ?_ block
    exact ⟨h.openPart, h.highest, h.le⟩
  close c h := by
    by_cases hfinish : cfg.faults.finish c.partId = true
    · simp only [consumeLoop, finishSink, hfinish, if_true]
      exact returnsClosed_error _ _
    · simp only [consumeLoop, finishSink, hfinish, Bool.false_eq_true, if_false]
      split
      · exact returnsClosed_error _ _
      · exact fun _ => h.openPart.closedLog c.partId

/-- A run of the consumer that returns has lost none of the rows it pushed. -/
theorem consumeOrdered_closedLog (start : Nat) (store : UtxoStore) (items : List WorkItem)
    (hok : (consumeOrdered cfg start store items).2 = .ok ()) :
    ClosedLog (consumeOrdered cfg start store items).1.sink := by
  unfold consumeOrdered at hok ⊢
  split at hok
  · contradiction
  · rename_i hcreate
    rw [if_neg hcreate]
    have hinitial : Filing cfg (initialConsumer cfg start store) := by
      refine ⟨.create _, fun p hp => ?_, le_rfl⟩
      obtain rfl := List.mem_singleton.mp hp
      exact le_rfl
    refine (filing_invariant cfg).consumeLoop (fun item _ c h => ?_) hinitial hok
    cases item <;> exact ⟨h.openPart, h.highest, h.le⟩

end Consumer

end Bidx
