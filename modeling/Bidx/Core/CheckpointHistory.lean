import Bidx.Core.Disk
import Bidx.Lib.History

/-!
# Histories of checkpoints over several networks

What the checkpoint file gives back after a sequence of calls.  The sections
describe the file after every call (`fileAfter_eq`), so the question is about them
alone: a checkpoint is recorded for its network when the network's section is the
one at the end of the file, and is lost to another network otherwise.  A section
that is no longer at the end never changes again, so what is lost stays lost.
-/

namespace Bidx

open TextLines

/-! ## The file is its sections -/

namespace Sections

theorem any_sortByHeight (cps : List DiskCheckpoint) (p : DiskCheckpoint → Bool) :
    (sortByHeight cps).any p = cps.any p :=
  (List.mergeSort_perm cps _).any_eq

theorem isEmpty_sortByHeight (cps : List DiskCheckpoint) :
    (sortByHeight cps).isEmpty = cps.isEmpty := by
  rw [Bool.eq_iff_iff, List.isEmpty_iff_length_eq_zero, List.isEmpty_iff_length_eq_zero,
    sortByHeight, List.length_mergeSort]

/-- `has_section` asks for the network among the sections. -/
theorem hasSection_file (ss : Sections) (net : Network) :
    hasSection ss.file net = decide (net ∈ ss.map Prod.fst) := by
  unfold hasSection
  rw [readCheckpoints_file, isEmpty_sortByHeight]
  by_cases hnil : ss = []
  · subst hnil
    rfl
  · simp only [file, if_neg hnil, lines_unlines ss.isLine_fileLines, any_sectionLine]
    by_cases hmem : net ∈ ss.map Prod.fst
    · rw [decide_eq_true hmem, Bool.or_true]
    · rw [under_of_notMem hmem]
      rfl

theorem fileLines_cons (s : Network × List DiskCheckpoint) (ss : Sections) :
    fileLines (s :: ss) = fileLines ss ++ sectionLines s := by
  simp [fileLines]

theorem file_cons (s : Network × List DiskCheckpoint) (ss : Sections) :
    file (s :: ss) = some (unlines (fileLines ss) ++ unlines (sectionLines s)) := by
  rw [file, if_neg (List.cons_ne_nil _ _), fileLines_cons, unlines_append]

theorem appendCheckpoint_file (ss : Sections) (net : Network) (cp : DiskCheckpoint) :
    appendCheckpoint ss.file net cp = (ss.record net cp).file := by
  unfold appendCheckpoint record
  simp only [readCheckpoints_file, any_sortByHeight, hasSection_file]
  by_cases hheight : (ss.under net).any fun c => c.height == cp.height
  · rw [if_pos hheight, if_pos hheight]
  rw [if_neg hheight, if_neg hheight]
  by_cases hmem : net ∈ ss.map Prod.fst
  · cases ss with
    | nil => cases hmem
    | cons s ss =>
        simp only [hmem, if_pos, decide_true, file_cons]
        simp [sectionLines, unlines]
  · cases ss with
    | nil => simp [file, fileLines, sectionLines, unlines]
    | cons s ss =>
        simp only [if_neg hmem, decide_eq_false hmem, file_cons]
        simp [fileLines_cons, sectionLines, unlines]

/-- The sections after a sequence of calls. -/
def after (calls : List CheckpointCall) : Sections :=
  calls.foldl (fun ss call => ss.record call.1 call.2) []

theorem after_concat (calls : List CheckpointCall) (call : CheckpointCall) :
    after (calls ++ [call]) = (after calls).record call.1 call.2 := by
  rw [after, List.foldl_append]
  rfl

end Sections

theorem fileAfter_eq (calls : List CheckpointCall) : fileAfter calls = (Sections.after calls).file := by
  induction calls using List.reverseRecOn with
  | nil => rfl
  | append_singleton calls call ih =>
      rw [Sections.after_concat, ← Sections.appendCheckpoint_file, ← ih, fileAfter, fileAfter,
        List.foldl_append]
      rfl

/-! ## What a call does to the sections -/

/-- The heights of a list of checkpoints. -/
def heights (cps : List DiskCheckpoint) : List UInt32 := cps.map DiskCheckpoint.height

theorem any_height_iff {cps : List DiskCheckpoint} {h : UInt32} :
    (cps.any fun c => c.height == h) = true ↔ h ∈ heights cps := by
  simp [heights]

namespace Sections

/-- The network of the section at the end of the file. -/
def current (ss : Sections) : Option Network := ss.head?.map Prod.fst

section Record

variable {ss : Sections} {net : Network} {cp : DiskCheckpoint}

theorem record_of_known_height (h : cp.height ∈ heights (ss.under net)) : ss.record net cp = ss :=
  if_pos (any_height_iff.mpr h)

theorem record_of_new_network (h : net ∉ ss.map Prod.fst) :
    ss.record net cp = (net, [cp]) :: ss := by
  unfold record
  rw [under_of_notMem h, if_neg (by simp), if_neg h]

/-- A new height of a known network goes to the section at the end. -/
theorem record_of_new_height (hmem : net ∈ ss.map Prod.fst)
    (h : cp.height ∉ heights (ss.under net)) :
    ∃ sec cps rest, ss = (sec, cps) :: rest ∧ ss.record net cp = (sec, cps ++ [cp]) :: rest := by
  cases ss with
  | nil => cases hmem
  | cons s rest =>
      obtain ⟨sec, cps⟩ := s
      refine ⟨sec, cps, rest, rfl, ?_⟩
      rw [record, if_neg fun hany => h (any_height_iff.mp hany), if_pos hmem]

theorem names_record :
    (ss.record net cp).map Prod.fst =
      if net ∈ ss.map Prod.fst then ss.map Prod.fst else net :: ss.map Prod.fst := by
  by_cases hmem : net ∈ ss.map Prod.fst
  · rw [if_pos hmem]
    by_cases hheight : cp.height ∈ heights (ss.under net)
    · rw [record_of_known_height hheight]
    · obtain ⟨sec, cps, rest, hss, hrecord⟩ := record_of_new_height hmem hheight
      rw [hrecord, hss]
      rfl
  · rw [if_neg hmem, record_of_new_network hmem, List.map_cons]

theorem under_append_current (sec : Network) (cps : List DiskCheckpoint) (rest : Sections)
    (cp : DiskCheckpoint) (net : Network) :
    under ((sec, cps ++ [cp]) :: rest) net =
      under ((sec, cps) :: rest) net ++ if sec = net then [cp] else [] := by
  rw [under_cons, under_cons]
  by_cases h : sec = net <;> simp [h]

/-- What is at the end of the file decides which network a call adds to. -/
theorem under_record_of_current (hcurrent : ss.current = some net)
    (h : cp.height ∉ heights (ss.under net)) (other : Network) :
    (ss.record net cp).under other = ss.under other ++ if net = other then [cp] else [] := by
  have hmem : net ∈ ss.map Prod.fst := by
    obtain ⟨s, hs, rfl⟩ := Option.map_eq_some_iff.mp hcurrent
    exact List.mem_map_of_mem (List.mem_of_head? hs)
  obtain ⟨sec, cps, rest, rfl, hrecord⟩ := record_of_new_height hmem h
  obtain rfl : sec = net := Option.some.inj hcurrent
  rw [hrecord, under_append_current]

/-- A section that is not at the end of the file stays as it is, and stays where it is. -/
theorem closed_record {closed : Network} (hmem : closed ∈ ss.map Prod.fst)
    (hclosed : ss.current ≠ some closed) (net : Network) (cp : DiskCheckpoint) :
    (ss.record net cp).under closed = ss.under closed ∧
      closed ∈ (ss.record net cp).map Prod.fst ∧ (ss.record net cp).current ≠ some closed := by
  by_cases hheight : cp.height ∈ heights (ss.under net)
  · rw [record_of_known_height hheight]
    exact ⟨rfl, hmem, hclosed⟩
  by_cases hnet : net ∈ ss.map Prod.fst
  · obtain ⟨sec, cps, rest, rfl, hrecord⟩ := record_of_new_height hnet hheight
    have hsec : sec ≠ closed := fun heq => hclosed (congrArg some heq)
    refine ⟨?_, ?_, ?_⟩
    · rw [hrecord, under_append_current, if_neg hsec, List.append_nil]
    · rw [hrecord]
      exact hmem
    · rw [hrecord]
      exact hclosed
  · have hne : net ≠ closed := fun heq => hnet (heq ▸ hmem)
    rw [record_of_new_network hnet]
    refine ⟨?_, List.mem_cons_of_mem _ hmem, fun heq => hne (Option.some.inj heq)⟩
    rw [under_cons, if_neg hne, List.append_nil]

end Record

/-! The networks of the sections are the called networks, the latest to be called for
the first time first. -/

theorem names_after (calls : List CheckpointCall) :
    (after calls).map Prod.fst = (calls.map Prod.fst).reverse.dedup := by
  induction calls using List.reverseRecOn with
  | nil => rfl
  | append_singleton calls call ih =>
      rw [after_concat, names_record, ih, List.map_append, List.map_singleton,
        List.reverse_append, List.reverse_singleton, List.singleton_append, List.dedup_cons']

theorem mem_names_after {calls : List CheckpointCall} {net : Network} :
    net ∈ (after calls).map Prod.fst ↔ net ∈ calls.map Prod.fst := by
  rw [names_after, List.mem_dedup, List.mem_reverse]

theorem current_eq_head_names (ss : Sections) : ss.current = (ss.map Prod.fst).head? :=
  List.head?_map.symm

/-- A network's section is at the end as long as no other network is called for the
first time. -/
theorem current_after_iff {a b : List CheckpointCall} {net : Network} {first : DiskCheckpoint}
    (hfirst : net ∉ a.map Prod.fst) :
    (after (a ++ (net, first) :: b)).current = some net ↔
      ∀ call ∈ b, call.1 = net ∨ call.1 ∈ a.map Prod.fst := by
  rw [current_eq_head_names, names_after]
  induction b using List.reverseRecOn with
  | nil => simp [List.dedup_cons_of_notMem, hfirst]
  | append_singleton b call ih =>
      have hsplit : ((a ++ (net, first) :: (b ++ [call])).map Prod.fst).reverse =
          call.1 :: ((a ++ (net, first) :: b).map Prod.fst).reverse := by simp
      rw [hsplit]
      by_cases hknown : call.1 ∈ (a ++ (net, first) :: b).map Prod.fst
      · rw [List.dedup_cons_of_mem (List.mem_reverse.mpr hknown), ih]
        refine ⟨fun hb c hc => ?_, fun hb c hc => hb c (List.mem_append_left _ hc)⟩
        rcases List.mem_append.mp hc with hc | hc
        · exact hb c hc
        · obtain rfl := List.mem_singleton.mp hc
          -- The network was called before: in `a`, for `net`, or in `b`.
          obtain ⟨c', hc', hnet⟩ := List.mem_map.mp hknown
          rw [← hnet]
          rcases List.mem_append.mp hc' with ha | hrest
          · exact .inr (List.mem_map_of_mem ha)
          · rcases List.mem_cons.mp hrest with rfl | hb'
            · exact .inl rfl
            · exact hb c' hb'
      · rw [List.dedup_cons_of_notMem (fun h => hknown (List.mem_reverse.mp h)), List.head?_cons]
        have hne : call.1 ≠ net ∧ call.1 ∉ a.map Prod.fst := by
          rw [List.map_append, List.map_cons, List.mem_append, List.mem_cons] at hknown
          exact ⟨fun h => hknown (.inr (.inl h)), fun h => hknown (.inl h)⟩
        constructor
        · intro h
          exact absurd (Option.some.inj h) hne.1
        · intro hb
          rcases hb call (List.mem_append_right _ (List.mem_singleton_self _)) with h | h
          · exact absurd h hne.1
          · exact absurd h hne.2

end Sections

/-! ## Histories -/

/-- The checkpoints given for a network, the first of each height, in the order they
were given. -/
def firstOfEachHeight (net : Network) (calls : List CheckpointCall) : List DiskCheckpoint :=
  calls.foldl (fun cps call =>
    if call.1 = net ∧ call.2.height ∉ heights cps then cps ++ [call.2] else cps) []

theorem firstOfEachHeight_concat (net : Network) (calls : List CheckpointCall)
    (call : CheckpointCall) :
    firstOfEachHeight net (calls ++ [call]) =
      if call.1 = net ∧ call.2.height ∉ heights (firstOfEachHeight net calls) then
        firstOfEachHeight net calls ++ [call.2]
      else
        firstOfEachHeight net calls := by
  rw [firstOfEachHeight, List.foldl_append]
  rfl

theorem mem_heights_firstOfEachHeight {net : Network} {calls : List CheckpointCall} {h : UInt32} :
    h ∈ heights (firstOfEachHeight net calls) ↔
      ∃ call ∈ calls, call.1 = net ∧ call.2.height = h := by
  induction calls using List.reverseRecOn with
  | nil => simp [firstOfEachHeight, heights]
  | append_singleton calls call ih =>
      rw [firstOfEachHeight_concat]
      constructor
      · intro hmem
        split at hmem
        · rename_i hnew
          rw [heights, List.map_append, List.mem_append] at hmem
          rcases hmem with hold | hlast
          · obtain ⟨c, hc, hnet⟩ := ih.mp hold
            exact ⟨c, List.mem_append_left _ hc, hnet⟩
          · refine ⟨call, List.mem_append_right _ (List.mem_singleton_self _), hnew.1, ?_⟩
            exact (List.mem_singleton.mp hlast).symm
        · obtain ⟨c, hc, hnet⟩ := ih.mp hmem
          exact ⟨c, List.mem_append_left _ hc, hnet⟩
      · rintro ⟨c, hc, hnet, rfl⟩
        rcases List.mem_append.mp hc with hold | hlast
        · have hmem := ih.mpr ⟨c, hold, hnet, rfl⟩
          split
          · rw [heights, List.map_append]
            exact List.mem_append_left _ hmem
          · exact hmem
        · obtain rfl := List.mem_singleton.mp hlast
          split
          · simp [heights]
          · rename_i hold
            by_contra hnot
            exact hold ⟨hnet, hnot⟩

/-- Every network's history is read back as it was given. -/
def ReadsHistory (calls : List CheckpointCall) : Prop :=
  ∀ net, readCheckpoints (fileAfter calls) net = sortByHeight (firstOfEachHeight net calls)

/-- Whenever a network is given a new height, no other network has been called for the
first time since its own first call. -/
def SectionsStayOpen (calls : List CheckpointCall) : Prop :=
  ∀ a b post net first cp, calls = a ++ (net, first) :: b ++ (net, cp) :: post →
    net ∉ a.map Prod.fst →
    (∀ call ∈ (net, first) :: b, call.1 = net → call.2.height ≠ cp.height) →
    ∀ call ∈ b, call.1 = net ∨ call.1 ∈ a.map Prod.fst

/-- A network was given a height that is not in its section, and the section is closed. -/
def Lost (calls : List CheckpointCall) : Prop :=
  ∃ net h, h ∈ heights (firstOfEachHeight net calls) ∧
    h ∉ heights ((Sections.after calls).under net) ∧
    net ∈ (Sections.after calls).map Prod.fst ∧ (Sections.after calls).current ≠ some net

theorem Lost.concat {calls : List CheckpointCall} (hlost : Lost calls) (call : CheckpointCall) :
    Lost (calls ++ [call]) := by
  obtain ⟨net, h, hgiven, hmissing, hmem, hclosed⟩ := hlost
  obtain ⟨hunder, hmem', hclosed'⟩ := Sections.closed_record hmem hclosed call.1 call.2
  rw [← Sections.after_concat] at hunder hmem' hclosed'
  refine ⟨net, h, ?_, by rwa [hunder], hmem', hclosed'⟩
  obtain ⟨c, hc, hnet⟩ := mem_heights_firstOfEachHeight.mp hgiven
  exact mem_heights_firstOfEachHeight.mpr ⟨c, List.mem_append_left _ hc, hnet⟩

theorem Lost.not_readsHistory {calls : List CheckpointCall} (hlost : Lost calls) :
    ¬ReadsHistory calls := by
  obtain ⟨net, h, hgiven, hmissing, -⟩ := hlost
  intro hreads
  have hread := hreads net
  rw [fileAfter_eq, Sections.readCheckpoints_file] at hread
  apply hmissing
  obtain ⟨cp, hcp, rfl⟩ := List.mem_map.mp hgiven
  have hsorted : cp ∈ sortByHeight (firstOfEachHeight net calls) := List.mem_mergeSort.mpr hcp
  rw [← hread] at hsorted
  exact List.mem_map_of_mem (List.mem_mergeSort.mp hsorted)

/-- A called network has a first call. -/
theorem exists_first_call {calls : List CheckpointCall} {net : Network}
    (h : net ∈ calls.map Prod.fst) :
    ∃ a first b, calls = a ++ (net, first) :: b ∧ net ∉ a.map Prod.fst := by
  obtain ⟨as, bs, hsplit, hnot⟩ := List.eq_append_cons_of_mem h
  obtain ⟨a, rest, rfl, rfl, hrest⟩ := List.map_eq_append_iff.mp hsplit
  obtain ⟨call, b, rfl, rfl, -⟩ := List.map_eq_cons_iff.mp hrest
  exact ⟨a, call.2, b, rfl, hnot⟩

/-- One more call keeps the sections open when a new height of a known network finds
its section at the end of the file. -/
theorem sectionsStayOpen_concat (calls : List CheckpointCall) (net : Network)
    (cp : DiskCheckpoint) :
    SectionsStayOpen (calls ++ [(net, cp)]) ↔
      SectionsStayOpen calls ∧
        (net ∈ calls.map Prod.fst → cp.height ∉ heights (firstOfEachHeight net calls) →
          (Sections.after calls).current = some net) := by
  constructor
  · intro hopen
    constructor
    · intro a b post net' first cp' hcalls
      exact hopen a b (post ++ [(net, cp)]) net' first cp' (by rw [hcalls]; simp)
    · intro hmem hnew
      obtain ⟨a, first, b, rfl, hfirst⟩ := exists_first_call hmem
      rw [Sections.current_after_iff hfirst]
      refine hopen a b [] net first cp (by simp) hfirst ?_
      intro call hcall hnet heq
      exact hnew (mem_heights_firstOfEachHeight.mpr
        ⟨call, List.mem_append_right _ hcall, hnet, heq⟩)
  · rintro ⟨hopen, hlast⟩ a b post net' first cp' hcalls hfirst hnew
    rcases List.eq_nil_or_concat post with rfl | ⟨post, last, rfl⟩
    · -- The call in question is the last one.
      obtain ⟨rfl, hcall⟩ := List.append_inj' hcalls rfl
      obtain ⟨rfl, rfl⟩ : net = net' ∧ cp = cp' := by simpa using hcall
      rw [← @Sections.current_after_iff _ _ _ first hfirst]
      apply hlast (by simp)
      intro hmem
      obtain ⟨call, hcall, hnet, heq⟩ := mem_heights_firstOfEachHeight.mp hmem
      rcases List.mem_append.mp hcall with ha | hrest
      · exact hfirst (hnet ▸ List.mem_map_of_mem ha)
      · exact hnew call hrest hnet heq
    · refine hopen a b post net' first cp' ?_ hfirst hnew
      rw [List.concat_eq_append, ← List.cons_append, ← List.append_assoc] at hcalls
      exact (List.append_inj' hcalls rfl).1

/-- As long as the sections stay open, each holds its network's history. -/
theorem SectionsStayOpen.under_eq {calls : List CheckpointCall} (hopen : SectionsStayOpen calls)
    (net : Network) : (Sections.after calls).under net = firstOfEachHeight net calls := by
  induction calls using List.reverseRecOn generalizing net with
  | nil => rfl
  | append_singleton calls call ih =>
      obtain ⟨called, cp⟩ := call
      obtain ⟨hbefore, hcurrent⟩ := (sectionsStayOpen_concat calls called cp).mp hopen
      have ih := ih hbefore
      rw [Sections.after_concat, firstOfEachHeight_concat]
      by_cases hmem : called ∈ (Sections.after calls).map Prod.fst
      · by_cases hheight : cp.height ∈ heights ((Sections.after calls).under called)
        · rw [Sections.record_of_known_height hheight, ih, if_neg]
          rintro ⟨rfl, hnew⟩
          exact hnew (by rwa [ih] at hheight)
        · have hnow : (Sections.after calls).current = some called :=
            hcurrent (Sections.mem_names_after.mp hmem) (by rwa [ih] at hheight)
          rw [Sections.under_record_of_current hnow hheight, ih]
          by_cases hnet : called = net
          · subst hnet
            rw [ih] at hheight
            rw [if_pos rfl, if_pos ⟨rfl, hheight⟩]
          · rw [if_neg hnet, if_neg fun h => hnet h.1, List.append_nil]
      · have hempty := Sections.under_of_notMem hmem
        rw [Sections.record_of_new_network hmem, Sections.under_cons, ih]
        by_cases hnet : called = net
        · subst hnet
          rw [ih] at hempty
          rw [hempty, if_pos rfl, if_pos ⟨rfl, by simp [heights]⟩]
        · rw [if_neg hnet, if_neg fun h => hnet h.1, List.append_nil]

/-- A call whose checkpoint goes to another network's section loses it. -/
theorem sectionsStayOpen_ratchet : History.Ratchet SectionsStayOpen Lost where
  nil := by
    intro a b post net first cp hcalls
    simp at hcalls
  step := by
    rintro calls ⟨net, cp⟩ hopen
    by_cases hlands : net ∈ calls.map Prod.fst →
        cp.height ∉ heights (firstOfEachHeight net calls) →
        (Sections.after calls).current = some net
    · exact .inl ((sectionsStayOpen_concat calls net cp).mpr ⟨hopen, hlands⟩)
    · push Not at hlands
      obtain ⟨hmem, hnew, hclosed⟩ := hlands
      rw [← Sections.mem_names_after] at hmem
      obtain ⟨hunder, hmem', hclosed'⟩ := Sections.closed_record hmem hclosed net cp
      rw [← Sections.after_concat calls (net, cp)] at hunder hmem' hclosed'
      refine .inr ⟨net, cp.height, ?_, ?_, hmem', hclosed'⟩
      · exact mem_heights_firstOfEachHeight.mpr
          ⟨(net, cp), List.mem_append_right _ (List.mem_singleton_self _), rfl, rfl⟩
      · rw [hunder, hopen.under_eq]
        exact hnew
  stays_lost _ call hlost := hlost.concat call

/-- For every sequence of calls on a file that is missing at first, each network's
history is read back, the first checkpoint of each of its heights sorted by height and
nothing else, exactly when every new height of a network was appended before another
network's first call closed its section. -/
theorem readsHistory_iff (calls : List CheckpointCall) :
    ReadsHistory calls ↔ SectionsStayOpen calls := by
  refine sectionsStayOpen_ratchet.observed_iff ?_ (fun _ hlost => hlost.not_readsHistory) calls
  intro calls hopen net
  rw [fileAfter_eq, Sections.readCheckpoints_file, hopen.under_eq]

/-- A second mainnet checkpoint after signet's first one is read as signet's. -/
theorem interleaved_history_lost :
    let calls : List CheckpointCall :=
      [(.mainnet, ⟨100000, 1000⟩), (.signet, ⟨100000, 5000⟩), (.mainnet, ⟨200000, 2000⟩)]
    readCheckpoints (fileAfter calls) .mainnet = [⟨100000, 1000⟩] ∧
      readCheckpoints (fileAfter calls) .signet = [⟨100000, 5000⟩, ⟨200000, 2000⟩] ∧
      ¬ReadsHistory calls := by
  intro calls
  have hsections : Sections.after calls =
      [(.signet, [⟨100000, 5000⟩, ⟨200000, 2000⟩]), (.mainnet, [⟨100000, 1000⟩])] := by decide
  have hmainnet : readCheckpoints (fileAfter calls) .mainnet = [⟨100000, 1000⟩] := by
    rw [fileAfter_eq, Sections.readCheckpoints_file, hsections]
    exact List.mergeSort_of_pairwise (by decide)
  refine ⟨hmainnet, ?_, ?_⟩
  · rw [fileAfter_eq, Sections.readCheckpoints_file, hsections]
    exact List.mergeSort_of_pairwise (by decide)
  · intro hreads
    have hread := hreads .mainnet
    rw [hmainnet] at hread
    have hlength := congrArg List.length hread
    rw [sortByHeight, List.length_mergeSort] at hlength
    revert hlength
    decide

end Bidx
