import Mathlib.Algebra.GroupWithZero.Nat
import Mathlib.Data.List.Dedup
import Bidx.Core.Network
import Bidx.Lib.TextLines

/-!
# The checkpoint history file

The disk guard keeps one text file of `(height, total bytes)` checkpoints for all
networks.  A line `network <name>` opens a section, and a checkpoint line belongs
to the nearest section header above it.  The file is only ever appended to: a new
checkpoint goes to the end, behind a header of its own only when its network has
none anywhere in the file.

The file is given by its text, `none` while it does not exist; writing succeeds.
A history of calls is a list of networks with their checkpoints.  What the file
then holds is described by its sections (`Sections`), and the history is read back
as it was given exactly when every checkpoint found its network's section still
open.
-/

namespace Bidx

open TextLines

structure DiskCheckpoint where
  height : UInt32
  totalBytes : UInt64
deriving DecidableEq

/-! ## Reading and appending -/

/-- The state of `read_checkpoints` between lines: the section it is in and what it
has collected. -/
abbrev CheckpointScan := Option (List Char) × List DiskCheckpoint

/-- One line of `read_checkpoints`. -/
def readCheckpointLine (net : Network) (scan : CheckpointScan) (line : List Char) :
    CheckpointScan :=
  let line := trim line
  if line = [] ∨ line.head? = some '#' then
    scan
  else
    match splitWhitespace line with
    | [first, second] =>
        if first = "network".toList then
          (some second, scan.2)
        else if scan.1 = some net.name.toList then
          match parseUnsigned (2 ^ 32) first, parseUnsigned (2 ^ 64) second with
          | some h, some b => (scan.1, scan.2 ++ [⟨UInt32.ofNat h, UInt64.ofNat b⟩])
          | _, _ => scan
        else
          scan
    | _ => scan

/-- `sort_by_key(|c| c.height)`, a stable sort. -/
def sortByHeight (cps : List DiskCheckpoint) : List DiskCheckpoint :=
  cps.mergeSort fun c c' => c.height ≤ c'.height

/-- `read_checkpoints`. -/
def readCheckpoints (file : Option (List Char)) (net : Network) : List DiskCheckpoint :=
  match file with
  | none => []
  | some text => sortByHeight ((lines text).foldl (readCheckpointLine net) (none, [])).2

/-- The line `network <name>`. -/
def sectionLine (net : Network) : List Char := "network".toList ++ ' ' :: net.name.toList

/-- The line `<height> <total_bytes>`. -/
def checkpointLine (cp : DiskCheckpoint) : List Char :=
  Nat.toDigits 10 cp.height.toNat ++ ' ' :: Nat.toDigits 10 cp.totalBytes.toNat

/-- The comment a new file starts with. -/
def headerLines : List (List Char) := [
  "# bidx disk checkpoints v1".toList,
  "# one 'network <name>' section per chain; lines are '<height> <total_bytes>'".toList]

/-- `has_section`: the network has a checkpoint, or its header stands somewhere. -/
def hasSection (file : Option (List Char)) (net : Network) : Bool :=
  !(readCheckpoints file net).isEmpty || match file with
    | some text => (lines text).any fun l => trim l == sectionLine net
    | none => false

/-- `append_checkpoint`: the file afterwards. -/
def appendCheckpoint (file : Option (List Char)) (net : Network) (cp : DiskCheckpoint) :
    Option (List Char) :=
  let existing := readCheckpoints file net
  if existing.any fun c => c.height == cp.height then
    file
  else
    let header := if file.isNone then unlines headerLines else []
    let block := if hasSection file net then [] else writeln (sectionLine net)
    some (file.getD [] ++ header ++ block ++ writeln (checkpointLine cp))

/-- A call of `append_checkpoint`. -/
abbrev CheckpointCall := Network × DiskCheckpoint

/-- The file after a sequence of calls, missing at first. -/
def fileAfter (calls : List CheckpointCall) : Option (List Char) :=
  calls.foldl (fun file call => appendCheckpoint file call.1 call.2) none

/-! ## What the written lines are read as -/

theorem Network.isWord_name (net : Network) : IsWord net.name.toList := by
  cases net <;> decide

theorem Network.name_injective {net net' : Network} (h : net.name.toList = net'.name.toList) :
    net = net' := by
  revert h
  cases net <;> cases net' <;> decide

theorem isWord_network : IsWord "network".toList := by decide

theorem toDigits_ne_network (n : Nat) : Nat.toDigits 10 n ≠ "network".toList := by
  intro h
  have hdigit : 'n'.isDigit := isDigit_toDigits (n := n) (by rw [h]; decide)
  exact absurd hdigit (by decide)

section Lines

variable (net : Network) (scan : CheckpointScan)

theorem readCheckpointLine_pair {a b : List Char} (ha : IsWord a) (hb : IsWord b)
    (hhash : a.head? ≠ some '#') :
    readCheckpointLine net scan (a ++ ' ' :: b) =
      if a = "network".toList then
        (some b, scan.2)
      else if scan.1 = some net.name.toList then
        match parseUnsigned (2 ^ 32) a, parseUnsigned (2 ^ 64) b with
        | some h, some b => (scan.1, scan.2 ++ [⟨UInt32.ofNat h, UInt64.ofNat b⟩])
        | _, _ => scan
      else
        scan := by
  have hskip : ¬(a ++ ' ' :: b = [] ∨ (a ++ ' ' :: b).head? = some '#') := by
    rw [List.head?_append_of_ne_nil _ ha.1]
    simp [hhash]
  simp only [readCheckpointLine, trim_pair ha hb, if_neg hskip, splitWhitespace_pair ha hb]

theorem readCheckpointLine_header {line : List Char} (h : line ∈ headerLines) :
    readCheckpointLine net scan line = scan := by
  have hskip : trim line = [] ∨ (trim line).head? = some '#' := by
    revert line
    decide
  simp only [readCheckpointLine, if_pos hskip]

theorem readCheckpointLine_section (sec : Network) :
    readCheckpointLine net scan (sectionLine sec) = (some sec.name.toList, scan.2) := by
  have hhash : "network".toList.head? ≠ some '#' := by decide
  have hpair := readCheckpointLine_pair net scan isWord_network sec.isWord_name hhash
  rwa [if_pos (rfl : "network".toList = "network".toList)] at hpair

theorem readCheckpointLine_checkpoint (cp : DiskCheckpoint) :
    readCheckpointLine net scan (checkpointLine cp) =
      (scan.1, if scan.1 = some net.name.toList then scan.2 ++ [cp] else scan.2) := by
  have hhash : (Nat.toDigits 10 cp.height.toNat).head? ≠ some '#' := by
    intro h
    exact absurd (isDigit_toDigits (List.mem_of_head? h)) (by decide)
  rw [checkpointLine, readCheckpointLine_pair net scan (isWord_toDigits _) (isWord_toDigits _) hhash,
    if_neg (toDigits_ne_network _), parseUnsigned_toDigits cp.height.toNat_lt,
    parseUnsigned_toDigits cp.totalBytes.toNat_lt]
  split
  · simp
  · rfl

end Lines

/-! ## Sections -/

/-- The sections of a file, the one at its end first. -/
abbrev Sections := List (Network × List DiskCheckpoint)

namespace Sections

/-- The checkpoints under the headers of a network. -/
def under (ss : Sections) (net : Network) : List DiskCheckpoint :=
  (ss.reverse.filter fun s => s.1 = net).flatMap Prod.snd

/-- The lines of one section. -/
def sectionLines (s : Network × List DiskCheckpoint) : List (List Char) :=
  sectionLine s.1 :: s.2.map checkpointLine

/-- The lines of a file with these sections. -/
def fileLines (ss : Sections) : List (List Char) :=
  headerLines ++ ss.reverse.flatMap sectionLines

/-- The file; without a section there is none yet. -/
def file (ss : Sections) : Option (List Char) :=
  if ss = [] then none else some (unlines ss.fileLines)

/-- What `append_checkpoint` does to the sections. -/
def record (ss : Sections) (net : Network) (cp : DiskCheckpoint) : Sections :=
  if (ss.under net).any fun c => c.height == cp.height then
    ss
  else if net ∈ ss.map Prod.fst then
    -- The checkpoint goes to the end of the file, whatever section is open there.
    match ss with
    | [] => []
    | (sec, cps) :: rest => (sec, cps ++ [cp]) :: rest
  else
    (net, [cp]) :: ss

theorem mem_sectionLines {s : Network × List DiskCheckpoint} {line : List Char} :
    line ∈ sectionLines s ↔ line = sectionLine s.1 ∨ ∃ cp ∈ s.2, checkpointLine cp = line := by
  rw [sectionLines, List.mem_cons, List.mem_map]

theorem under_cons (s : Network × List DiskCheckpoint) (ss : Sections) (net : Network) :
    under (s :: ss) net = under ss net ++ if s.1 = net then s.2 else [] := by
  by_cases h : s.1 = net <;> simp [under, h]

theorem under_of_notMem {ss : Sections} {net : Network} (h : net ∉ ss.map Prod.fst) :
    ss.under net = [] := by
  induction ss with
  | nil => rfl
  | cons s ss ih =>
      rw [List.map_cons, List.mem_cons, not_or] at h
      rw [under_cons, ih h.2, if_neg (Ne.symm h.1), List.append_nil]

theorem isLine_headerLines : ∀ line ∈ headerLines, IsLine line := by
  unfold IsLine
  decide

theorem isLine_fileLines (ss : Sections) : ∀ line ∈ ss.fileLines, IsLine line := by
  intro line hline
  rcases List.mem_append.mp hline with hheader | hsection
  · exact isLine_headerLines line hheader
  · obtain ⟨s, -, hs⟩ := List.mem_flatMap.mp hsection
    rcases mem_sectionLines.mp hs with rfl | ⟨cp, -, rfl⟩
    · exact isLine_pair isWord_network s.1.isWord_name
    · exact isLine_pair (isWord_toDigits _) (isWord_toDigits _)

/-- Within its section every checkpoint line counts, in any other none does. -/
theorem foldl_checkpointLines (net : Network) (scan : CheckpointScan)
    (cps : List DiskCheckpoint) :
    (cps.map checkpointLine).foldl (readCheckpointLine net) scan =
      (scan.1, if scan.1 = some net.name.toList then scan.2 ++ cps else scan.2) := by
  induction cps generalizing scan with
  | nil => simp
  | cons cp cps ih =>
      rw [List.map_cons, List.foldl_cons, readCheckpointLine_checkpoint, ih]
      split <;> simp

theorem foldl_sectionLines (net : Network) (scan : CheckpointScan)
    (s : Network × List DiskCheckpoint) :
    (sectionLines s).foldl (readCheckpointLine net) scan =
      (some s.1.name.toList, scan.2 ++ if s.1 = net then s.2 else []) := by
  rw [sectionLines, List.foldl_cons, readCheckpointLine_section, foldl_checkpointLines]
  by_cases h : s.1 = net
  · simp [h]
  · have hname : s.1.name.toList ≠ net.name.toList := fun heq => h (Network.name_injective heq)
    simp [h, hname]

theorem foldl_fileLines (net : Network) (ss : Sections) :
    (ss.fileLines.foldl (readCheckpointLine net) (none, [])).2 = ss.under net := by
  have hheader : headerLines.foldl (readCheckpointLine net) (none, []) = (none, []) := by
    simp only [headerLines, List.foldl_cons, List.foldl_nil]
    rw [readCheckpointLine_header net _ (by simp [headerLines]),
      readCheckpointLine_header net _ (by simp [headerLines])]
  have hsections : ∀ scan : CheckpointScan,
      ((ss.reverse.flatMap sectionLines).foldl (readCheckpointLine net) scan).2 =
        scan.2 ++ ss.under net := by
    -- The file lists the sections oldest first, so the induction is on that order.
    induction ss with
    | nil => simp [under]
    | cons s ss ih =>
        intro scan
        rw [List.reverse_cons, List.flatMap_append, List.foldl_append, List.flatMap_singleton,
          foldl_sectionLines, ih, under_cons, List.append_assoc]
  rw [fileLines, List.foldl_append, hheader, hsections]
  rfl

/-- Reading a file of sections. -/
theorem readCheckpoints_file (ss : Sections) (net : Network) :
    readCheckpoints ss.file net = sortByHeight (ss.under net) := by
  unfold file
  split
  · rename_i hnil
    subst hnil
    simp [readCheckpoints, sortByHeight, under]
  · rw [readCheckpoints, lines_unlines ss.isLine_fileLines, foldl_fileLines]

theorem trim_sectionLine (net : Network) : trim (sectionLine net) = sectionLine net :=
  trim_pair isWord_network net.isWord_name

theorem sectionLine_injective {net net' : Network} (h : sectionLine net = sectionLine net') :
    net = net' := by
  have htail : ' ' :: net.name.toList = ' ' :: net'.name.toList := List.append_cancel_left h
  exact Network.name_injective (List.cons.inj htail).2

theorem trim_header_ne {line : List Char} (h : line ∈ headerLines) (net : Network) :
    trim line ≠ sectionLine net := by
  revert line
  cases net <;> decide

theorem trim_checkpointLine_ne (cp : DiskCheckpoint) (net : Network) :
    trim (checkpointLine cp) ≠ sectionLine net := by
  rw [checkpointLine, trim_pair (isWord_toDigits _) (isWord_toDigits _)]
  intro h
  -- The first character of the one is a digit, of the other a letter.
  obtain ⟨c, cs, hdigits⟩ := List.exists_cons_of_ne_nil (Nat.toDigits_ne_nil (n := cp.height.toNat)
    (b := 10))
  have hdigit : c.isDigit := isDigit_toDigits (n := cp.height.toNat) (by simp [hdigits])
  rw [hdigits] at h
  have hc : c = 'n' := (List.cons.inj h).1
  rw [hc] at hdigit
  exact absurd hdigit (by decide)

/-- A section header is in the file exactly when its network has a section. -/
theorem any_sectionLine (ss : Sections) (net : Network) :
    (ss.fileLines.any fun l => trim l == sectionLine net) = decide (net ∈ ss.map Prod.fst) := by
  rw [Bool.eq_iff_iff, List.any_eq_true, decide_eq_true_eq, List.mem_map]
  constructor
  · rintro ⟨line, hline, heq⟩
    rw [beq_iff_eq] at heq
    rcases List.mem_append.mp hline with hheader | hsection
    · exact absurd heq (trim_header_ne hheader net)
    · obtain ⟨s, hs, hmem⟩ := List.mem_flatMap.mp hsection
      rcases mem_sectionLines.mp hmem with rfl | ⟨cp, -, rfl⟩
      · rw [trim_sectionLine] at heq
        exact ⟨s, List.mem_reverse.mp hs, sectionLine_injective heq⟩
      · exact absurd heq (trim_checkpointLine_ne cp net)
  · rintro ⟨s, hs, rfl⟩
    refine ⟨sectionLine s.1, ?_, beq_iff_eq.mpr (trim_sectionLine s.1)⟩
    exact List.mem_append_right _
      (List.mem_flatMap.mpr ⟨s, List.mem_reverse.mpr hs, mem_sectionLines.mpr (.inl rfl)⟩)

end Sections

end Bidx
