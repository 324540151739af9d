import Bidx.Core.CheckpointHistory
import Bidx.Core.Projection
import Bidx.Store.LedgerRefinement

/-!
# The disk guard

Before any indexing, `run_pre_flight` projects the size of the finished index and refuses
to start if less than ten gibibytes would remain free; while blocks are applied,
`DiskRecorder` writes the checkpoints the projection is made from.

The subtractions of the check saturate at zero.  For the decision that is the same as exact
arithmetic, but not for the amount the refusal asks the operator to free
(`preflight_amount_suffices_iff`).  The recorder remembers the last height it recorded and
reads it back from the file when it starts, so restarts leave no trace in the history
(`recorder_history`).
-/

namespace Bidx

open TextLines

/-! ## Directory sizes -/

/-- An entry of a directory. -/
inductive DirEntry where
  | dir (entries : List DirEntry)
  | file (size : UInt64)
  | symlink
  /-- Its type, its size or its entries cannot be read. -/
  | unreadable

mutual

/-- What an entry adds to the size. -/
def DirEntry.bytes : DirEntry → UInt64
  | .dir entries => entryBytes 0 entries
  | .file size => size
  | .symlink => 0
  | .unreadable => 0

/-- The loop of `inner`. -/
def entryBytes (total : UInt64) : List DirEntry → UInt64
  | [] => total
  | entry :: entries => entryBytes (saturatingAdd total entry.bytes) entries

end

/-- `dir_size_bytes`; a missing directory has no bytes. -/
def dirSizeBytes : Option (List DirEntry) → UInt64
  | some entries => entryBytes 0 entries
  | none => 0

/-- The bytes of the tracked directories. -/
def totalBytes (trackedDirs : List (Option (List DirEntry))) : UInt64 :=
  (trackedDirs.map dirSizeBytes).foldl (· + ·) 0

/-! ## The startup check -/

/-- `MIN_FREE_BYTES`. -/
def minFreeBytes : UInt64 := 10 * 1024 * 1024 * 1024

/-- What the guard finds on the disk: the checkpoint file, the tracked directories and the
result of `free_space_bytes`. -/
structure DiskView where
  checkpointFile : Option (List Char)
  trackedDirs : List (Option (List DirEntry))
  freeSpace : Option UInt64

structure PreflightReport where
  network : Network
  indexedTip : UInt32
  nodeTip : UInt32
  checkpointsUsed : Nat
  currentTotalBytes : UInt64
  projectedTotalBytes : UInt64
  additionalNeededBytes : UInt64
  freeBytesNow : UInt64
  freeBytesAtCompletion : UInt64
  minFreeBytes : UInt64
deriving DecidableEq

inductive PreflightError where
  | statfs
  | insufficient (report : PreflightReport) (needGib : UInt64)
deriving DecidableEq

/-- `current_total_bytes`. -/
def DiskView.currentTotalBytes (disk : DiskView) : UInt64 := totalBytes disk.trackedDirs

/-- `projected_total_at`. -/
def DiskView.projectedTotalAt (disk : DiskView) (net : Network) (targetHeight : UInt32) :
    UInt64 × List DiskCheckpoint :=
  let cps := readCheckpoints disk.checkpointFile net
  (projectedTotalBytes cps targetHeight, cps)

/-- `additional_needed`. -/
def DiskView.additionalNeeded (disk : DiskView) (net : Network) (nodeTip : UInt32) : UInt64 :=
  let (projectedTotal, checkpoints) := disk.projectedTotalAt net nodeTip
  if checkpoints.isEmpty then 0 else saturatingSub projectedTotal disk.currentTotalBytes

/-- A gibibyte. -/
def gib : UInt64 := 1024 * 1024 * 1024

/-- The gibibytes a refusal names. -/
def needGib (minFree freeAtEnd : UInt64) : UInt64 :=
  (saturatingSub minFree freeAtEnd + gib - 1) / gib

/-- `run_pre_flight`. -/
def runPreFlight (net : Network) (disk : DiskView) (nodeTip localTip : UInt32)
    (minFree : UInt64) : Except PreflightError PreflightReport :=
  let current := disk.currentTotalBytes
  let (projectedTotal, checkpoints) := disk.projectedTotalAt net nodeTip
  let additionalNeeded := disk.additionalNeeded net nodeTip
  match disk.freeSpace with
  | none => .error .statfs
  | some freeNow =>
      let freeAtEnd := saturatingSub freeNow additionalNeeded
      let report : PreflightReport := ⟨net, localTip, nodeTip, checkpoints.length, current,
        projectedTotal, additionalNeeded, freeNow, freeAtEnd, minFree⟩
      -- Without a checkpoint nothing is known about the growth, and nothing refused.
      if ¬checkpoints.isEmpty ∧ freeAtEnd < minFree then
        .error (.insufficient report (needGib minFree freeAtEnd))
      else
        .ok report

/-! ## What a directory holds -/

mutual

/-- The sizes of the files below an entry. -/
def DirEntry.fileSizes : DirEntry → List UInt64
  | .dir entries => fileSizesOf entries
  | .file size => [size]
  | .symlink => []
  | .unreadable => []

def fileSizesOf : List DirEntry → List UInt64
  | [] => []
  | entry :: entries => entry.fileSizes ++ fileSizesOf entries

end

mutual

theorem DirEntry.toNat_bytes (entry : DirEntry) :
    entry.bytes.toNat = min (entry.fileSizes.map UInt64.toNat).sum (2 ^ 64 - 1) := by
  cases entry with
  | dir entries =>
      rw [DirEntry.bytes, toNat_entryBytes, DirEntry.fileSizes, UInt64.toNat_zero, Nat.zero_add]
  | file size =>
      have hlt := size.toNat_lt
      rw [DirEntry.bytes, DirEntry.fileSizes, List.map_singleton, List.sum_singleton]
      omega
  | symlink => simp [DirEntry.bytes, DirEntry.fileSizes]
  | unreadable => simp [DirEntry.bytes, DirEntry.fileSizes]

/-- All files at any depth count, up to the largest size. -/
theorem toNat_entryBytes (total : UInt64) (entries : List DirEntry) :
    (entryBytes total entries).toNat =
      min (total.toNat + ((fileSizesOf entries).map UInt64.toNat).sum) (2 ^ 64 - 1) := by
  cases entries with
  | nil =>
      have hlt := total.toNat_lt
      rw [entryBytes, fileSizesOf, List.map_nil, List.sum_nil]
      omega
  | cons entry entries =>
      rw [entryBytes, toNat_entryBytes, toNat_saturatingAdd, DirEntry.toNat_bytes, fileSizesOf,
        List.map_append, List.sum_append]
      omega

end

/-! ## What is refused, and what helps -/

section Preflight

variable {net : Network} {disk : DiskView} {nodeTip localTip : UInt32} {free : UInt64}

theorem toNat_needGib (freeAtEnd : UInt64) :
    (needGib minFreeBytes freeAtEnd).toNat =
      (10 * 2 ^ 30 - freeAtEnd.toNat + 2 ^ 30 - 1) / 2 ^ 30 := by
  have hmin : minFreeBytes.toNat = 10 * 2 ^ 30 := rfl
  have hgib : gib.toNat = 2 ^ 30 := rfl
  have hsub := toNat_saturatingSub minFreeBytes freeAtEnd
  simp only [needGib, UInt64.toNat_div, UInt64.toNat_sub, UInt64.toNat_add, hgib, hsub, hmin,
    UInt64.toNat_one]
  omega

/-- The report of the check. -/
def DiskView.report (disk : DiskView) (net : Network) (nodeTip localTip : UInt32)
    (free : UInt64) : PreflightReport where
  network := net
  indexedTip := localTip
  nodeTip := nodeTip
  checkpointsUsed := (readCheckpoints disk.checkpointFile net).length
  currentTotalBytes := disk.currentTotalBytes
  projectedTotalBytes := (disk.projectedTotalAt net nodeTip).1
  additionalNeededBytes := disk.additionalNeeded net nodeTip
  freeBytesNow := free
  freeBytesAtCompletion := saturatingSub free (disk.additionalNeeded net nodeTip)
  minFreeBytes := minFreeBytes

theorem runPreFlight_eq (hfree : disk.freeSpace = some free) :
    runPreFlight net disk nodeTip localTip minFreeBytes =
      if readCheckpoints disk.checkpointFile net ≠ [] ∧
          free.toNat < (disk.additionalNeeded net nodeTip).toNat + minFreeBytes.toNat then
        .error (.insufficient (disk.report net nodeTip localTip free)
          (needGib minFreeBytes (saturatingSub free (disk.additionalNeeded net nodeTip))))
      else
        .ok (disk.report net nodeTip localTip free) := by
  have hsub := toNat_saturatingSub free (disk.additionalNeeded net nodeTip)
  have hmin : minFreeBytes.toNat = 10 * 2 ^ 30 := rfl
  rw [runPreFlight, hfree]
  refine if_congr ?_ rfl rfl
  rw [UInt64.lt_iff_toNat_lt, hsub]
  rw [List.isEmpty_iff]
  refine and_congr_right fun _ => ?_
  omega

/-- The decision is that of exact arithmetic. -/
theorem runPreFlight_isOk_iff (hfree : disk.freeSpace = some free) :
    (∃ report, runPreFlight net disk nodeTip localTip minFreeBytes = .ok report) ↔
      readCheckpoints disk.checkpointFile net = [] ∨
        (disk.additionalNeeded net nodeTip).toNat + minFreeBytes.toNat ≤ free.toNat := by
  rw [runPreFlight_eq hfree]
  split
  · rename_i hrefused
    simp only [reduceCtorEq, exists_false, false_iff, not_or]
    exact ⟨hrefused.1, by omega⟩
  · rename_i hpassed
    simp only [Except.ok.injEq, exists_eq', true_iff]
    by_cases hnil : readCheckpoints disk.checkpointFile net = []
    · exact .inl hnil
    · have henough := not_and.mp hpassed hnil
      exact .inr (by omega)

/-- What a refusal reports. -/
theorem runPreFlight_refused {report : PreflightReport} {amount : UInt64}
    (h : runPreFlight net disk nodeTip localTip minFreeBytes =
      .error (.insufficient report amount)) :
    disk.freeSpace = some report.freeBytesNow ∧
      report.additionalNeededBytes = disk.additionalNeeded net nodeTip ∧
      readCheckpoints disk.checkpointFile net ≠ [] ∧
      amount = needGib minFreeBytes
        (saturatingSub report.freeBytesNow report.additionalNeededBytes) := by
  cases hfree : disk.freeSpace with
  | none =>
      rw [runPreFlight, hfree] at h
      cases h
  | some free =>
      rw [runPreFlight_eq hfree] at h
      split at h
      · rename_i hrefused
        obtain ⟨rfl, rfl⟩ := PreflightError.insufficient.inj (Except.error.inj h)
        exact ⟨rfl, rfl, hrefused.1, rfl⟩
      · cases h

/-- A refused start is let through once the amount of the refusal has been freed, if and only
if the projected growth fits into the space that was free: otherwise the subtraction has
saturated, and what is missing below zero is not in the amount. -/
theorem preflight_amount_suffices_iff {report : PreflightReport} {amount free : UInt64}
    (hrefused : runPreFlight net disk nodeTip localTip minFreeBytes =
      .error (.insufficient report amount))
    (hfreed : free.toNat = report.freeBytesNow.toNat + amount.toNat * 2 ^ 30) :
    (∃ report', runPreFlight net { disk with freeSpace := some free } nodeTip localTip
      minFreeBytes = .ok report') ↔ report.additionalNeededBytes ≤ report.freeBytesNow := by
  obtain ⟨hfree, hadditional, hcheckpoints, rfl⟩ := runPreFlight_refused hrefused
  have hlow : ¬∃ report', runPreFlight net disk nodeTip localTip minFreeBytes = .ok report' := by
    rintro ⟨report', hok⟩
    rw [hrefused] at hok
    cases hok
  rw [runPreFlight_isOk_iff hfree, not_or, ← hadditional] at hlow
  rw [runPreFlight_isOk_iff rfl, or_iff_right hcheckpoints, UInt64.le_iff_toNat_le]
  change report.additionalNeededBytes = _ at hadditional
  change (disk.additionalNeeded net nodeTip).toNat + _ ≤ _ ↔ _
  have hmin : minFreeBytes.toNat = 10 * 2 ^ 30 := rfl
  rw [toNat_needGib, toNat_saturatingSub] at hfreed
  rw [hmin] at hlow ⊢
  rw [← hadditional]
  omega

/-- A mainnet history of one checkpoint, on a full disk. -/
def fullDisk : DiskView where
  checkpointFile := Sections.file [(.mainnet, [⟨100000, 1000⟩])]
  trackedDirs := []
  freeSpace := some 0

theorem readCheckpoints_fullDisk :
    readCheckpoints fullDisk.checkpointFile .mainnet = [⟨100000, 1000⟩] := by
  rw [fullDisk, Sections.readCheckpoints_file]
  exact List.mergeSort_of_pairwise (by decide)

theorem additionalNeeded_fullDisk :
    (fullDisk.additionalNeeded .mainnet 200000).toNat = 200000000 := by
  have hprojected := projected_singleton ⟨100000, 1000⟩ 200000
  have hcurrent : fullDisk.currentTotalBytes = 0 := rfl
  rw [DiskView.additionalNeeded, DiskView.projectedTotalAt, readCheckpoints_fullDisk]
  change (saturatingSub _ _).toNat = _
  rw [toNat_saturatingSub, hprojected, hcurrent]
  decide

/-- Ten gibibytes are asked for, and are not enough. -/
theorem preflight_amount_suffices_sample :
    runPreFlight .mainnet fullDisk 200000 100000 minFreeBytes =
        .error (.insufficient (fullDisk.report .mainnet 200000 100000 0) 10) ∧
      ((∃ report', runPreFlight .mainnet { fullDisk with freeSpace := some (10 * gib) } 200000
          100000 minFreeBytes = .ok report') ↔
        (fullDisk.report .mainnet 200000 100000 0).additionalNeededBytes ≤ 0) ∧
      ¬(fullDisk.report .mainnet 200000 100000 0).additionalNeededBytes ≤ 0 := by
  have hneeded := additionalNeeded_fullDisk
  have hamount : needGib minFreeBytes
      (saturatingSub 0 (fullDisk.additionalNeeded .mainnet 200000)) = 10 := by
    apply UInt64.toNat_inj.mp
    rw [toNat_needGib, toNat_saturatingSub, hneeded]
    decide
  have hrefused : runPreFlight .mainnet fullDisk 200000 100000 minFreeBytes =
      .error (.insufficient (fullDisk.report .mainnet 200000 100000 0) 10) := by
    have hfree : fullDisk.freeSpace = some 0 := rfl
    have hsome : readCheckpoints fullDisk.checkpointFile .mainnet ≠ [] := by
      rw [readCheckpoints_fullDisk]
      exact List.cons_ne_nil _ _
    rw [runPreFlight_eq hfree, if_pos ⟨hsome, by rw [hneeded]; decide⟩, hamount]
  refine ⟨hrefused, preflight_amount_suffices_iff hrefused (by decide), ?_⟩
  change ¬fullDisk.additionalNeeded .mainnet 200000 ≤ 0
  rw [UInt64.le_iff_toNat_le, hneeded]
  decide

end Preflight

/-! ## The recorder -/

/-- `CHECKPOINT_HEIGHT_STEP`, the value of `checkpoint_step()` outside tests. -/
def checkpointHeightStep : UInt32 := 100000

/-- `DiskRecorder`, with the checkpoint file it writes. -/
structure DiskRecorder where
  network : Network
  file : Option (List Char)
  state : Option UInt32

/-- An applied block and the tracked directories as they are then. -/
structure AppliedBlock where
  height : UInt32
  trackedDirs : List (Option (List DirEntry))

/-- The checkpoint of a block. -/
def AppliedBlock.checkpoint (block : AppliedBlock) : DiskCheckpoint where
  height := block.height
  totalBytes := totalBytes block.trackedDirs

/-- `DiskRecorder::new`. -/
def DiskRecorder.new (net : Network) (file : Option (List Char)) : DiskRecorder where
  network := net
  file := file
  state := (readCheckpoints file net).getLast?.map DiskCheckpoint.height

/-- `on_block_applied`: the recorder afterwards, and whether a checkpoint was written. -/
def DiskRecorder.onBlockApplied (r : DiskRecorder) (block : AppliedBlock) : DiskRecorder × Bool :=
  if block.height = 0 ∨ block.height % checkpointHeightStep ≠ 0 then
    (r, false)
  else if r.state.any fun last => block.height ≤ last then
    (r, false)
  else
    ({ r with
        file := appendCheckpoint r.file r.network block.checkpoint
        state := some block.height }, true)

/-- A run of the indexer: the checkpoint file afterwards. -/
def recordRun (net : Network) (file : Option (List Char)) (blocks : List AppliedBlock) :
    Option (List Char) :=
  (blocks.foldl (fun r block => (r.onBlockApplied block).1) (DiskRecorder.new net file)).file

/-- Runs one after the other, each with a recorder of its own; the file is missing at
first. -/
def recordRuns (net : Network) (runs : List (List AppliedBlock)) : Option (List Char) :=
  runs.foldl (recordRun net) none

/-- A height at which a checkpoint is due. -/
def IsBoundary (height : UInt32) : Prop :=
  0 < height ∧ checkpointHeightStep.toNat ∣ height.toNat

/-- No boundary of these blocks is as high as the height. -/
def Tops (height : UInt32) (blocks : List AppliedBlock) : Prop :=
  ∀ block ∈ blocks, IsBoundary block.height → block.height < height

/-- The file with the history of a single network. -/
def historyFile (net : Network) (history : List DiskCheckpoint) : Option (List Char) :=
  Sections.file (if history = [] then [] else [(net, history)])

/-- The checkpoints stand in the order of their heights. -/
def Ascending (history : List DiskCheckpoint) : Prop :=
  history.Pairwise fun cp cp' => cp.height < cp'.height

theorem readCheckpoints_historyFile {net : Network} {history : List DiskCheckpoint}
    (h : Ascending history) : readCheckpoints (historyFile net history) net = history := by
  have hunder : Sections.under (if history = [] then [] else [(net, history)]) net = history := by
    split
    · rename_i hnil
      rw [hnil]
      rfl
    · rw [Sections.under_cons, if_pos rfl]
      rfl
  rw [historyFile, Sections.readCheckpoints_file, hunder]
  apply List.mergeSort_of_pairwise
  exact List.Pairwise.imp (fun hlt => decide_eq_true (UInt32.le_of_lt hlt)) h

theorem readCheckpoints_historyFile_other {net other : Network} (h : net ≠ other)
    (history : List DiskCheckpoint) : readCheckpoints (historyFile net history) other = [] := by
  have hunder : Sections.under (if history = [] then [] else [(net, history)]) other = [] := by
    split
    · rfl
    · rw [Sections.under_cons, if_neg h]
      rfl
  rw [historyFile, Sections.readCheckpoints_file, hunder]
  exact List.mergeSort_nil

/-- A checkpoint above the history goes to its end. -/
theorem appendCheckpoint_historyFile {net : Network} {history : List DiskCheckpoint}
    {cp : DiskCheckpoint} (h : ∀ old ∈ history, old.height < cp.height) :
    appendCheckpoint (historyFile net history) net cp = historyFile net (history ++ [cp]) := by
  have hnew : cp.height ∉ heights history := by
    intro hmem
    obtain ⟨old, hold, heq⟩ := List.mem_map.mp hmem
    have hlt := h old hold
    rw [heq] at hlt
    exact UInt32.lt_irrefl _ hlt
  have hfile : historyFile net (history ++ [cp]) = Sections.file [(net, history ++ [cp])] := by
    rw [historyFile, if_neg (List.append_ne_nil_of_right_ne_nil _ (List.cons_ne_nil _ _))]
  rw [hfile, historyFile, Sections.appendCheckpoint_file]
  congr 1
  by_cases hnil : history = []
  · rw [if_pos hnil, hnil]
    exact Sections.record_of_new_network List.not_mem_nil
  · rw [if_neg hnil]
    have hunder : Sections.under [(net, history)] net = history := by
      rw [Sections.under_cons, if_pos rfl]
      rfl
    rw [Sections.record, hunder, if_neg fun hany => hnew (any_height_iff.mp hany)]
    exact if_pos (List.mem_singleton_self net)

/-- The recorder stands on this history: the file holds it, and the recorder remembers its
last height. -/
structure StandsOn (r : DiskRecorder) (history : List DiskCheckpoint) : Prop where
  ascending : Ascending history
  file : r.file = historyFile r.network history
  state : r.state = history.getLast?.map DiskCheckpoint.height

theorem DiskRecorder.standsOn_new {net : Network} {history : List DiskCheckpoint}
    (h : Ascending history) : StandsOn (.new net (historyFile net history)) history where
  ascending := h
  file := rfl
  state := by rw [DiskRecorder.new, readCheckpoints_historyFile h]

/-- The last height of a history is its highest. -/
theorem Ascending.any_getLast {history : List DiskCheckpoint} (h : Ascending history)
    (height : UInt32) :
    (history.getLast?.map DiskCheckpoint.height).any (fun last => height ≤ last) = false ↔
      ∀ cp ∈ history, cp.height < height := by
  rcases List.eq_nil_or_concat history with rfl | ⟨init, last, rfl⟩
  · simp
  · rw [List.concat_eq_append] at h ⊢
    rw [Ascending, List.pairwise_append] at h
    simp only [List.getLast?_concat, Option.map_some, Option.any_some, decide_eq_false_iff_not,
      UInt32.not_le, List.forall_mem_append, List.forall_mem_singleton]
    constructor
    · intro hlt
      refine ⟨fun cp hcp => ?_, hlt⟩
      exact UInt32.lt_trans (h.2.2 cp hcp last (List.mem_singleton_self last)) hlt
    · exact And.right

/-- What a block adds to a history. -/
def due (history : List DiskCheckpoint) (block : AppliedBlock) : List DiskCheckpoint :=
  if 0 < block.height ∧ block.height % checkpointHeightStep = 0 ∧
      ∀ cp ∈ history, cp.height < block.height then
    [block.checkpoint]
  else
    []

/-- One block. -/
theorem StandsOn.onBlockApplied {r : DiskRecorder} {history : List DiskCheckpoint}
    (h : StandsOn r history) (block : AppliedBlock) :
    StandsOn (r.onBlockApplied block).1 (history ++ due history block) ∧
      (r.onBlockApplied block).1.network = r.network := by
  unfold DiskRecorder.onBlockApplied due
  by_cases hboundary : block.height = 0 ∨ block.height % checkpointHeightStep ≠ 0
  · have hnot : ¬(0 < block.height ∧ block.height % checkpointHeightStep = 0 ∧
        ∀ cp ∈ history, cp.height < block.height) := by
      rintro ⟨hpos, hmod, -⟩
      rcases hboundary with hzero | hmod'
      · exact UInt32.pos_iff_ne_zero.mp hpos hzero
      · exact hmod' hmod
    rw [if_pos hboundary, if_neg hnot, List.append_nil]
    exact ⟨h, rfl⟩
  obtain ⟨hne, hmod⟩ := not_or.mp hboundary
  have hpos : 0 < block.height := UInt32.pos_iff_ne_zero.mpr hne
  rw [if_neg hboundary, h.state]
  by_cases hold : ∀ cp ∈ history, cp.height < block.height
  · rw [if_neg (by rw [(h.ascending.any_getLast _).mpr hold]; exact Bool.false_ne_true),
      if_pos ⟨hpos, not_not.mp hmod, hold⟩]
    refine ⟨⟨?_, ?_, ?_⟩, rfl⟩
    · rw [Ascending, List.pairwise_append]
      refine ⟨h.ascending, List.pairwise_singleton _ _, ?_⟩
      intro cp hcp cp' hcp'
      obtain rfl := List.mem_singleton.mp hcp'
      exact hold cp hcp
    · change appendCheckpoint r.file r.network block.checkpoint = _
      rw [h.file]
      exact appendCheckpoint_historyFile hold
    · rw [List.getLast?_concat]
      rfl
  · have hseen : (history.getLast?.map DiskCheckpoint.height).any
        (fun last => block.height ≤ last) = true := by
      rw [← Bool.not_eq_false, h.ascending.any_getLast]
      exact hold
    rw [if_pos hseen, if_neg fun hdue => hold hdue.2.2, List.append_nil]
    exact ⟨h, rfl⟩

/-- The history after a list of blocks. -/
def historyAfter (history : List DiskCheckpoint) (blocks : List AppliedBlock) :
    List DiskCheckpoint :=
  blocks.foldl (fun history block => history ++ due history block) history

theorem StandsOn.foldl {r : DiskRecorder} {history : List DiskCheckpoint}
    (h : StandsOn r history) (blocks : List AppliedBlock) :
    StandsOn (blocks.foldl (fun r block => (r.onBlockApplied block).1) r)
        (historyAfter history blocks) ∧
      (blocks.foldl (fun r block => (r.onBlockApplied block).1) r).network = r.network := by
  induction blocks generalizing r history with
  | nil => exact ⟨h, rfl⟩
  | cons block blocks ih =>
      obtain ⟨hstands, hnetwork⟩ := h.onBlockApplied block
      obtain ⟨hrest, hsame⟩ := ih hstands
      exact ⟨hrest, hsame.trans hnetwork⟩

theorem recordRun_historyFile {net : Network} {history : List DiskCheckpoint}
    (h : Ascending history) (blocks : List AppliedBlock) :
    recordRun net (historyFile net history) blocks =
        historyFile net (historyAfter history blocks) ∧
      Ascending (historyAfter history blocks) := by
  have hnew : StandsOn (.new net (historyFile net history)) history := DiskRecorder.standsOn_new h
  obtain ⟨hstands, hnetwork⟩ := hnew.foldl blocks
  refine ⟨?_, hstands.ascending⟩
  rw [recordRun, hstands.file, hnetwork]
  rfl

/-- Restarts leave no trace. -/
theorem recordRuns_eq (net : Network) (runs : List (List AppliedBlock)) :
    recordRuns net runs = historyFile net (historyAfter [] runs.flatten) ∧
      Ascending (historyAfter [] runs.flatten) := by
  induction runs using List.reverseRecOn with
  | nil => exact ⟨rfl, List.Pairwise.nil⟩
  | append_singleton runs blocks ih =>
      obtain ⟨hfile, hascending⟩ := ih
      have hflat : historyAfter [] (runs ++ [blocks]).flatten =
          historyAfter (historyAfter [] runs.flatten) blocks := by
        rw [List.flatten_concat, historyAfter, historyAfter, historyAfter, List.foldl_append]
      have hlast : recordRuns net (runs ++ [blocks]) =
          recordRun net (recordRuns net runs) blocks := by
        rw [recordRuns, List.foldl_concat]
        rfl
      rw [hflat, hlast, hfile]
      exact recordRun_historyFile hascending blocks

theorem isBoundary_iff {height : UInt32} :
    IsBoundary height ↔ 0 < height ∧ height % checkpointHeightStep = 0 := by
  refine and_congr_right fun _ => ?_
  rw [Nat.dvd_iff_mod_eq_zero, ← UInt32.toNat_mod, ← UInt32.toNat_zero, UInt32.toNat_inj]

theorem historyAfter_concat (blocks : List AppliedBlock) (block : AppliedBlock) :
    historyAfter [] (blocks ++ [block]) =
      historyAfter [] blocks ++ due (historyAfter [] blocks) block := by
  rw [historyAfter, List.foldl_concat]
  rfl

theorem mem_due {history : List DiskCheckpoint} {block : AppliedBlock} {cp : DiskCheckpoint} :
    cp ∈ due history block ↔ block.checkpoint = cp ∧ IsBoundary block.height ∧
      ∀ old ∈ history, old.height < block.height := by
  rw [isBoundary_iff, and_assoc, due]
  split
  · rename_i hdue
    rw [List.mem_singleton, and_iff_left hdue, eq_comm]
  · rename_i hdue
    exact iff_of_false List.not_mem_nil fun h => hdue h.2

/-- No boundary is above the history. -/
theorem exists_mem_historyAfter {blocks : List AppliedBlock} {block : AppliedBlock}
    (hmem : block ∈ blocks) (hboundary : IsBoundary block.height) :
    ∃ cp ∈ historyAfter [] blocks, block.height ≤ cp.height := by
  induction blocks using List.reverseRecOn with
  | nil => cases hmem
  | append_singleton blocks last ih =>
      rw [historyAfter_concat]
      rcases List.mem_append.mp hmem with hold | hlast
      · obtain ⟨cp, hcp, hle⟩ := ih hold
        exact ⟨cp, List.mem_append_left _ hcp, hle⟩
      · obtain rfl := List.mem_singleton.mp hlast
        by_cases htop : ∀ old ∈ historyAfter [] blocks, old.height < block.height
        · have hdue := mem_due.mpr ⟨rfl, hboundary, htop⟩
          exact ⟨block.checkpoint, List.mem_append_right _ hdue, UInt32.le_refl _⟩
        · push Not at htop
          obtain ⟨cp, hcp, hle⟩ := htop
          exact ⟨cp, List.mem_append_left _ hcp, UInt32.not_lt.mp hle⟩

/-- The history holds the boundaries that were the highest when they were applied. -/
theorem mem_historyAfter (blocks : List AppliedBlock) (cp : DiskCheckpoint) :
    cp ∈ historyAfter [] blocks ↔ ∃ before block after,
      blocks = before ++ block :: after ∧ block.checkpoint = cp ∧ IsBoundary block.height ∧
        Tops block.height before := by
  induction blocks using List.reverseRecOn generalizing cp with
  | nil => simp [historyAfter]
  | append_singleton blocks last ih =>
      have htops : (∀ old ∈ historyAfter [] blocks, old.height < last.height) ↔
          Tops last.height blocks := by
        constructor
        · intro htop block hmem hboundary
          obtain ⟨cp, hcp, hle⟩ := exists_mem_historyAfter hmem hboundary
          exact UInt32.lt_of_le_of_lt hle (htop cp hcp)
        · intro htops old hold
          obtain ⟨before, block, after, rfl, rfl, hboundary, -⟩ := (ih old).mp hold
          exact htops block (by simp) hboundary
      rw [historyAfter_concat, List.mem_append, ih, mem_due, htops]
      constructor
      · rintro (⟨before, block, after, rfl, hblock⟩ | hlast)
        · exact ⟨before, block, after ++ [last], by simp, hblock⟩
        · exact ⟨blocks, last, [], rfl, hlast⟩
      · rintro ⟨before, block, after, hsplit, hblock⟩
        rcases List.eq_nil_or_concat after with rfl | ⟨after, last', rfl⟩
        · obtain ⟨rfl, hlast⟩ := List.append_inj' hsplit rfl
          obtain rfl := (List.cons.inj hlast).1
          exact .inr hblock
        · rw [List.concat_eq_append, ← List.cons_append, ← List.append_assoc] at hsplit
          exact .inl ⟨before, block, after, (List.append_inj' hsplit rfl).1, hblock⟩

/-- What a network's history reads as after any number of runs, each with any blocks. -/
theorem recorder_history (net : Network) (runs : List (List AppliedBlock)) :
    Ascending (readCheckpoints (recordRuns net runs) net) ∧
      (∀ cp, cp ∈ readCheckpoints (recordRuns net runs) net ↔ ∃ before block after,
        runs.flatten = before ++ block :: after ∧ block.checkpoint = cp ∧
          IsBoundary block.height ∧ Tops block.height before) ∧
      ∀ other, other ≠ net → readCheckpoints (recordRuns net runs) other = [] := by
  obtain ⟨hfile, hascending⟩ := recordRuns_eq net runs
  rw [hfile, readCheckpoints_historyFile hascending]
  refine ⟨hascending, mem_historyAfter runs.flatten, ?_⟩
  intro other hne
  exact readCheckpoints_historyFile_other hne.symm _

end Bidx
