import Mathlib.Data.List.Induction
import Bidx.Lib.History
import Bidx.Store.Parquet

/-!
# The live Parquet sink

`LiveSink` writes each applied block to the part of its height.  When a block's part
is not the open one, the open part is finished and the block's part is created,
whichever of the two numbers is the larger: after a reorg across a part boundary this
opens a part that was closed before, and empties it.

What a part holds at the end is therefore what was written to it since it was opened
last (`LiveSink.contents_writeBlock`).  Nothing is lost exactly when no part is
written, left for another part and written again.
-/

namespace Bidx

/-- `LIVE_BLOCKS_PER_PART`. -/
def liveBlocksPerPart : Nat := 1000

/-- The sink with the directory it writes to.  The source's `sink` is `None` only
while a rotation is under way. -/
structure LiveSink where
  dir : OutDir
  part : Nat
  sink : ParquetSink
  sink_part : sink.part = part

/-- The arguments of a `write_block` call. -/
structure LiveWrite where
  block : FullBlock
  spends : List SpendRow

namespace LiveWrite

/-- The part of the block's height. -/
def part (w : LiveWrite) : Nat := w.block.blockRow.height.toNat / liveBlocksPerPart

def rows (w : LiveWrite) : Rows := .ofBlock w.block w.spends

end LiveWrite

namespace LiveSink

/-- `LiveSink::create`. -/
def create (dir : OutDir) (startPart : Nat) : LiveSink where
  dir := (ParquetSink.create dir startPart .standard).1
  part := startPart
  sink := (ParquetSink.create dir startPart .standard).2
  sink_part := rfl

/-- `rotate_if_needed`. -/
def rotateIfNeeded (s : LiveSink) (height : UInt32) : LiveSink :=
  let wanted := height.toNat / liveBlocksPerPart
  if wanted = s.part then s else create (s.sink.finish s.dir) wanted

/-- `write_block`. -/
def writeBlock (s : LiveSink) (w : LiveWrite) : LiveSink :=
  let s := s.rotateIfNeeded w.block.blockRow.height
  { s with
    sink := s.sink.pushRows w.block w.spends
    sink_part := by rw [ParquetSink.part_pushRows, s.sink_part] }

/-- The directory after the sink is finished. -/
def finish (s : LiveSink) : OutDir := s.sink.finish s.dir

/-- The sink after a sequence of writes. -/
def after (startPart : Nat) (writes : List LiveWrite) : LiveSink :=
  writes.foldl writeBlock (create .fresh startPart)

/-- A whole run: the sink is created, written to and finished. -/
def run (startPart : Nat) (writes : List LiveWrite) : OutDir := (after startPart writes).finish

end LiveSink

/-! ## What the parts hold -/

namespace LiveSink

/-- The rows of a part: what is in its closed files, or pushed to the open ones. -/
def contents (s : LiveSink) (part : Nat) : Rows :=
  if part = s.part then s.sink.rows else s.dir part

theorem finish_apply (s : LiveSink) (part : Nat) : s.finish part = s.contents part := by
  rw [finish, ParquetSink.finish_eq, s.sink_part, Function.update_apply, contents]

theorem contents_create (dir : OutDir) (startPart part : Nat) :
    (create dir startPart).contents part = if part = startPart then .empty else dir part := by
  show (if part = startPart then Rows.empty else Function.update dir startPart Rows.empty part) = _
  by_cases h : part = startPart
  · rw [if_pos h, if_pos h]
  · rw [if_neg h, if_neg h, Function.update_of_ne h]

theorem part_rotateIfNeeded (s : LiveSink) (height : UInt32) :
    (s.rotateIfNeeded height).part = height.toNat / liveBlocksPerPart := by
  simp only [rotateIfNeeded]
  split
  · rename_i h
    exact h.symm
  · rfl

/-- Rotating to another part empties that part and keeps every other. -/
theorem contents_rotateIfNeeded (s : LiveSink) (height : UInt32) (part : Nat) :
    (s.rotateIfNeeded height).contents part =
      if part = height.toNat / liveBlocksPerPart ∧ part ≠ s.part then .empty
      else s.contents part := by
  simp only [rotateIfNeeded]
  by_cases hpart : height.toNat / liveBlocksPerPart = s.part
  · rw [if_pos hpart, if_neg]
    rintro ⟨rfl, hne⟩
    exact hne hpart
  · rw [if_neg hpart, contents_create]
    by_cases hwanted : part = height.toNat / liveBlocksPerPart
    · have hne : part ≠ s.part := by rwa [hwanted]
      rw [if_pos hwanted, if_pos ⟨hwanted, hne⟩]
    · rw [if_neg hwanted, if_neg fun h => hwanted h.1]
      exact s.finish_apply part

@[simp] theorem part_writeBlock (s : LiveSink) (w : LiveWrite) : (s.writeBlock w).part = w.part :=
  s.part_rotateIfNeeded _

theorem contents_writeBlock (s : LiveSink) (w : LiveWrite) (part : Nat) :
    (s.writeBlock w).contents part =
      if part = w.part then (if part = s.part then s.contents part else .empty) ++ w.rows
      else s.contents part := by
  have hrotated := s.contents_rotateIfNeeded w.block.blockRow.height part
  have hpart := s.part_rotateIfNeeded w.block.blockRow.height
  -- Rotation comes first; then the rows go to the part that is open.
  by_cases hw : part = w.part
  · have hopen : part = (s.rotateIfNeeded w.block.blockRow.height).part := hw.trans hpart.symm
    have hpushed : (s.writeBlock w).contents part =
        (s.rotateIfNeeded w.block.blockRow.height).contents part ++ w.rows := by
      rw [contents, part_writeBlock, if_pos hw, contents, if_pos hopen]
      exact ParquetSink.rows_pushRows _ _ _
    rw [hpushed, hrotated, if_pos hw]
    by_cases hs : part = s.part
    · rw [if_pos hs, if_neg fun h => h.2 hs]
    · rw [if_neg hs, if_pos ⟨hw, hs⟩]
  · have hclosed : ¬part = (s.rotateIfNeeded w.block.blockRow.height).part := by
      rwa [hpart]
    rw [if_neg hw, ← show _ = s.contents part from hrotated.trans (if_neg fun h => hw h.1)]
    rw [contents, part_writeBlock, if_neg hw, contents, if_neg hclosed]
    rfl

end LiveSink

/-! ## Histories of writes -/

/-- The rows written to a part, in the order they were written. -/
def writtenTo (part : Nat) (writes : List LiveWrite) : Rows :=
  .flatten ((writes.filter fun w => w.part = part).map LiveWrite.rows)

theorem writtenTo_concat (part : Nat) (writes : List LiveWrite) (w : LiveWrite) :
    writtenTo part (writes ++ [w]) =
      if part = w.part then writtenTo part writes ++ w.rows else writtenTo part writes := by
  rw [writtenTo, List.filter_append, List.map_append]
  by_cases h : part = w.part
  · rw [if_pos h, List.filter_cons_of_pos (by simp [h]), List.filter_nil, List.map_singleton,
      Rows.flatten_concat]
    rfl
  · rw [if_neg h, List.filter_cons_of_neg (by simp [Ne.symm h]), List.filter_nil, List.map_nil,
      List.append_nil]
    rfl

theorem writtenTo_eq_empty {part : Nat} {writes : List LiveWrite}
    (h : ∀ w ∈ writes, w.part ≠ part) : writtenTo part writes = .empty := by
  have hfilter : writes.filter (fun w => w.part = part) = [] :=
    List.filter_eq_nil_iff.mpr fun w hw => by simpa using h w hw
  rw [writtenTo, hfilter]
  rfl

/-- Every written block has its block row. -/
theorem length_blocks_writtenTo_pos {part : Nat} {writes : List LiveWrite} {w : LiveWrite}
    (hw : w ∈ writes) (hpart : w.part = part) : 0 < (writtenTo part writes).blocks.length := by
  induction writes using List.reverseRecOn with
  | nil => cases hw
  | append_singleton writes last ih =>
      rw [writtenTo_concat]
      rcases List.mem_append.mp hw with hold | hlast
      · split
        · rw [Rows.blocks_append, List.length_append]
          exact Nat.lt_of_lt_of_le (ih hold) (Nat.le_add_right _ _)
        · exact ih hold
      · obtain rfl := List.mem_singleton.mp hlast
        rw [if_pos hpart.symm, Rows.blocks_append, List.length_append]
        exact Nat.lt_of_lt_of_le Nat.one_pos (Nat.le_add_left _ _)

/-- A part that was written and left for another part is not written again. -/
def NoReturn (writes : List LiveWrite) : Prop :=
  ∀ a b c d x y z, writes = a ++ x :: b ++ y :: c ++ z :: d → x.part = z.part → y.part = x.part

/-- The part of the last write. -/
def lastPart (writes : List LiveWrite) : Option Nat := writes.getLast?.map LiveWrite.part

theorem lastPart_concat (writes : List LiveWrite) (w : LiveWrite) :
    lastPart (writes ++ [w]) = some w.part := by
  rw [lastPart, List.getLast?_concat, Option.map_some]

theorem exists_concat_of_lastPart {writes : List LiveWrite} {part : Nat}
    (h : lastPart writes = some part) : ∃ before w, writes = before ++ [w] ∧ w.part = part := by
  obtain ⟨w, hlast, hpart⟩ := Option.map_eq_some_iff.mp h
  obtain ⟨before, rfl⟩ := List.getLast?_eq_some_iff.mp hlast
  exact ⟨before, w, rfl, hpart⟩

/-- One more write does not return to a part when it is to a new part or to the part
of the write before it. -/
theorem noReturn_concat (writes : List LiveWrite) (w : LiveWrite) :
    NoReturn (writes ++ [w]) ↔
      NoReturn writes ∧ ∀ x ∈ writes, x.part = w.part → lastPart writes = some w.part := by
  constructor
  · intro hno
    constructor
    · intro a b c d x y z hwrites
      exact hno a b c (d ++ [w]) x y z (by rw [hwrites]; simp)
    · intro x hx hpart
      obtain ⟨a, rest, rfl⟩ := List.append_of_mem hx
      rcases List.eq_nil_or_concat rest with rfl | ⟨b, y, rfl⟩
      · rw [lastPart_concat, hpart]
      · have hy := hno a b [] [] x y w (by simp) hpart
        rw [List.concat_eq_append, ← List.cons_append, ← List.append_assoc, lastPart_concat, hy,
          hpart]
  · rintro ⟨hno, hlast⟩ a b c d x y z hwrites hpart
    rcases List.eq_nil_or_concat d with rfl | ⟨d, last, rfl⟩
    · -- The return is by the last write.
      obtain ⟨rfl, hz⟩ := List.append_inj' hwrites rfl
      obtain rfl : w = z := by simpa using hz
      have hw := hlast x (by simp) hpart
      rcases List.eq_nil_or_concat c with rfl | ⟨c, v, rfl⟩
      · rw [lastPart_concat] at hw
        rw [Option.some.inj hw, hpart]
      · rw [List.concat_eq_append, ← List.cons_append, ← List.append_assoc, lastPart_concat] at hw
        refine hno a b c [] x y v ?_ (hpart.trans (Option.some.inj hw).symm)
        simp
    · refine hno a b c d x y z ?_ hpart
      rw [List.concat_eq_append, ← List.cons_append, ← List.append_assoc] at hwrites
      exact (List.append_inj' hwrites rfl).1

namespace LiveSink

theorem after_concat (startPart : Nat) (writes : List LiveWrite) (w : LiveWrite) :
    after startPart (writes ++ [w]) = (after startPart writes).writeBlock w := by
  rw [after, List.foldl_append]
  rfl

theorem part_after {startPart part : Nat} {writes : List LiveWrite}
    (h : lastPart writes = some part) : (after startPart writes).part = part := by
  obtain ⟨before, w, rfl, rfl⟩ := exists_concat_of_lastPart h
  rw [after_concat, part_writeBlock]

theorem part_after_ne {startPart part : Nat} {writes : List LiveWrite} (hne : writes ≠ [])
    (h : lastPart writes ≠ some part) : (after startPart writes).part ≠ part := by
  obtain ⟨before, w, rfl⟩ : ∃ before w, writes = before ++ [w] := by
    rcases List.eq_nil_or_concat writes with rfl | ⟨before, w, rfl⟩
    · contradiction
    · exact ⟨before, w, List.concat_eq_append⟩
  rw [lastPart_concat] at h
  rw [after_concat, part_writeBlock]
  exact fun heq => h (congrArg some heq)

theorem contents_after_nil (startPart part : Nat) :
    (after startPart []).contents part = .empty := by
  show (create .fresh startPart).contents part = _
  rw [contents_create]
  split <;> rfl

/-- Without returns, every part holds what was written to it. -/
theorem contents_of_noReturn {writes : List LiveWrite} (hno : NoReturn writes)
    (startPart part : Nat) : (after startPart writes).contents part = writtenTo part writes := by
  -- The last write decides which part is open, so the induction is at the end.
  induction writes using List.reverseRecOn generalizing part with
  | nil => exact contents_after_nil startPart part
  | append_singleton writes w ih =>
      obtain ⟨hbefore, hreturn⟩ := (noReturn_concat writes w).mp hno
      rw [after_concat, contents_writeBlock, writtenTo_concat, ih hbefore]
      by_cases hw : part = w.part
      · rw [if_pos hw, if_pos hw]
        by_cases hopen : part = (after startPart writes).part
        · rw [if_pos hopen]
        · -- The part is opened anew: nothing was written to it before.
          rw [if_neg hopen, writtenTo_eq_empty]
          intro x hx hpart
          rw [← hw] at hreturn
          exact hopen (part_after (hreturn x hx hpart)).symm
      · rw [if_neg hw, if_neg hw]

/-- A part that misses a block row misses one for good. -/
theorem lost_concat {startPart part : Nat} {writes : List LiveWrite}
    (hlost : ((after startPart writes).contents part).blocks.length <
      (writtenTo part writes).blocks.length) (w : LiveWrite) :
    ((after startPart (writes ++ [w])).contents part).blocks.length <
      (writtenTo part (writes ++ [w])).blocks.length := by
  rw [after_concat, contents_writeBlock, writtenTo_concat]
  split
  · rw [Rows.blocks_append, Rows.blocks_append, List.length_append, List.length_append]
    apply Nat.add_lt_add_right
    split
    · exact hlost
    · exact Nat.lt_of_le_of_lt (Nat.zero_le _) hlost
  · exact hlost

/-- A write that returns to a part it left empties it, and the rows it had are lost. -/
theorem noReturn_ratchet (startPart : Nat) : History.Ratchet NoReturn fun writes =>
    ∃ part, ((after startPart writes).contents part).blocks.length <
      (writtenTo part writes).blocks.length where
  nil := by
    intro a b c d x y z hwrites
    simp at hwrites
  step := by
    intro writes w hno
    by_cases hreturn : ∀ x ∈ writes, x.part = w.part → lastPart writes = some w.part
    · exact .inl ((noReturn_concat writes w).mpr ⟨hno, hreturn⟩)
    · push Not at hreturn
      obtain ⟨x, hx, hpart, hleft⟩ := hreturn
      -- The part was written to and is not open: this write creates it anew.
      have hclosed : w.part ≠ (after startPart writes).part :=
        (part_after_ne (List.ne_nil_of_mem hx) hleft).symm
      refine .inr ⟨w.part, ?_⟩
      rw [after_concat, contents_writeBlock, if_pos rfl, if_neg hclosed, writtenTo_concat,
        if_pos rfl, Rows.empty_append, Rows.blocks_append, List.length_append]
      exact Nat.lt_add_of_pos_left (length_blocks_writtenTo_pos hx hpart)
  stays_lost := by
    rintro writes w ⟨part, hlost⟩
    exact ⟨part, lost_concat hlost w⟩

/-- For every starting part and every sequence of writes, the parts hold exactly the
rows written, each once and in the part of its height, if and only if no part is
written, left for another part and written again. -/
theorem run_holds_writes_iff (startPart : Nat) (writes : List LiveWrite) :
    (∀ part, (run startPart writes part).Perm (writtenTo part writes)) ↔ NoReturn writes := by
  have hrun : ∀ part, run startPart writes part = (after startPart writes).contents part :=
    fun part => finish_apply _ part
  simp only [hrun]
  refine @History.Ratchet.observed_iff _ _ _
    (fun writes => ∀ part, ((after startPart writes).contents part).Perm (writtenTo part writes))
    (noReturn_ratchet startPart) ?_ ?_ writes
  · intro writes hno part
    rw [contents_of_noReturn hno]
    exact .refl _
  · rintro writes ⟨part, hlost⟩ hperm
    have hlength := (hperm part).blocks.length_eq
    omega

end LiveSink

/-! Heights 999 and 1000, then a reorg of both: the second block of height 999 empties
part 0. -/

/-- A write of a block with a coinbase transaction only. -/
def sampleWrite (height : UInt32) (hash : Bytes 32) : LiveWrite where
  block := {
    blockRow := ⟨height, hash, zeroBytes 32, zeroBytes 32, 0, 0, 0, 1, 1, 0, 0, 0, 100⟩
    txs := [⟨height, 0, hash, 1, 0, 0, 0, 0, 1, 1, false⟩]
    inputs := [⟨height, 0, 0, hash, zeroBytes 32, 0xFFFFFFFF, 0, 0, 0, 0, true⟩]
    outputs := [⟨height, 0, 0, hash, 100, 0, 0, zeroBytes 32⟩] }
  spends := []

theorem reorg_over_boundary_loses_rows :
    let first := sampleWrite 999 (wordBytes 32 1)
    let second := sampleWrite 1000 (wordBytes 32 2)
    let third := sampleWrite 999 (wordBytes 32 3)
    LiveSink.run 0 [first, second, third] 0 = third.rows ∧
      ¬∀ part, (LiveSink.run 0 [first, second, third] part).Perm
        (writtenTo part [first, second, third]) := by
  intro first second third
  refine ⟨by decide +kernel, ?_⟩
  intro hperm
  have hlength := (hperm 0).blocks.length_eq
  revert hlength
  decide +kernel

end Bidx
