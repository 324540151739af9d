import Mathlib.Data.List.Dedup
import Bidx.Lib.ParentForest
import Bidx.Parser.Chain

/-!
# The header pass selects the heaviest rooted chain

The header map is a parent forest.  Every entry of the cumulative-work memo is
the work of the branch of its header (`CumOk`), whatever order the maps are
iterated in; after all headers are resolved, exactly the headers with a branch
have an entry.  The tip is therefore the heaviest of them, and the walk back
from it is its branch.
-/

namespace Bidx

open KeyValue ParentForest

variable {W : Type}

/-! ## The header map as a forest -/

/-- The parent links of a header map. -/
def Headers.parent (headers : Headers W) (h : Hash32) : Option (Option Hash32) :=
  (headers.lookup h).map fun e => if e.prev = Hash32.zero then none else some e.prev

namespace Headers

variable {headers : Headers W} {h p : Hash32} {e : HeaderEntry W}

theorem parent_of_root (hlookup : headers.lookup h = some e) (hzero : e.prev = Hash32.zero) :
    headers.parent h = some none := by
  rw [parent, hlookup, Option.map_some, if_pos hzero]

theorem parent_of_child (hlookup : headers.lookup h = some e) (hzero : e.prev ≠ Hash32.zero) :
    headers.parent h = some (some e.prev) := by
  rw [parent, hlookup, Option.map_some, if_neg hzero]

theorem lookup_of_parent_root (hparent : headers.parent h = some none) :
    ∃ e, headers.lookup h = some e ∧ e.prev = Hash32.zero := by
  obtain ⟨e, he, hzero⟩ := Option.map_eq_some_iff.mp hparent
  refine ⟨e, he, ?_⟩
  by_contra hne
  rw [if_neg hne] at hzero
  contradiction

theorem lookup_of_parent_child (hparent : headers.parent h = some (some p)) :
    ∃ e, headers.lookup h = some e ∧ e.prev ≠ Hash32.zero ∧ e.prev = p := by
  obtain ⟨e, he, hprev⟩ := Option.map_eq_some_iff.mp hparent
  split at hprev
  · contradiction
  · exact ⟨e, he, by assumption, Option.some.inj hprev⟩

theorem mem_keys_of_parent (hparent : headers.parent h ≠ none) : h ∈ headers.keys := by
  by_contra hnot
  apply hparent
  rw [parent, AList.lookup_eq_none.mpr hnot, Option.map_none]

end Headers

variable [AddMonoid W]

/-- The work of a list of headers. -/
def Headers.branchWork (headers : Headers W) (c : List Hash32) : W :=
  (c.map fun h => ((headers.lookup h).map HeaderEntry.work).getD 0).sum

theorem Headers.branchWork_snoc {headers : Headers W} {h : Hash32} {e : HeaderEntry W}
    (hlookup : headers.lookup h = some e) (c : List Hash32) :
    headers.branchWork (c ++ [h]) = headers.branchWork c + e.work := by
  simp [branchWork, hlookup]

theorem Headers.branchWork_root {headers : Headers W} {h : Hash32} {e : HeaderEntry W}
    (hlookup : headers.lookup h = some e) : headers.branchWork [h] = e.work := by
  simp [branchWork, hlookup]

/-! ## The memo -/

/-- Every memo entry is the work of its header's branch. -/
def CumOk (headers : Headers W) (cum : CumWork W) : Prop :=
  ∀ k w, cum.lookup k = some w → ∃ c, Branch headers.parent k c ∧ w = headers.branchWork c

/-- No entry gets lost. -/
def Grows (cum cum' : CumWork W) : Prop := ∀ k, cum.lookup k ≠ none → cum'.lookup k ≠ none

omit [AddMonoid W] in
theorem Grows.refl (cum : CumWork W) : Grows cum cum := fun _ hk => hk

omit [AddMonoid W] in
theorem Grows.trans {cum cum' cum'' : CumWork W} (h : Grows cum cum') (h' : Grows cum' cum'') :
    Grows cum cum'' := fun k hk => h' k (h k hk)

omit [AddMonoid W] in
theorem grows_insert (cum : CumWork W) (k : Hash32) (w : W) : Grows cum (cum.insert k w) := by
  intro a ha
  by_cases hak : a = k
  · subst hak
    simp
  · rw [AList.lookup_insert_ne hak]
    exact ha

section Memo

variable {headers : Headers W} {cum : CumWork W} {h k : Hash32} {c : List Hash32} {w : W}

theorem CumOk.empty (headers : Headers W) : CumOk headers ∅ := by
  intro k w hk
  rw [AList.lookup_empty] at hk
  contradiction

theorem CumOk.insert (hok : CumOk headers cum) (hbranch : Branch headers.parent k c)
    (hw : w = headers.branchWork c) : CumOk headers (cum.insert k w) := by
  intro a v ha
  by_cases hak : a = k
  · subst hak
    rw [AList.lookup_insert] at ha
    obtain rfl := Option.some.inj ha
    exact ⟨c, hbranch, hw⟩
  · rw [AList.lookup_insert_ne hak] at ha
    exact hok a v ha

/-- A header whose parent's work is known has its branch one step longer. -/
theorem CumOk.child (hok : CumOk headers cum) {entry : HeaderEntry W}
    (hlookup : headers.lookup h = some entry) (hw : parentCum cum entry = some w) :
    ∃ c, Branch headers.parent h c ∧ w + entry.work = headers.branchWork c := by
  unfold parentCum at hw
  split at hw
  · rename_i hzero
    obtain rfl := Option.some.inj hw
    refine ⟨[h], .root (Headers.parent_of_root hlookup hzero), ?_⟩
    rw [Headers.branchWork_root hlookup, zero_add]
  · rename_i hzero
    obtain ⟨c, hc, rfl⟩ := hok entry.prev w hw
    refine ⟨c ++ [h], .child (Headers.parent_of_child hlookup hzero) hc, ?_⟩
    rw [Headers.branchWork_snoc hlookup]

/-- The seed pass keeps the memo right: a candidate whose parent's work is known
comes up a second time and is entered, any other is dropped. -/
theorem CumOk.seedStack (hok : CumOk headers cum) (g : Hash32) :
    CumOk headers (Bidx.seedStack headers [(g, false)] cum) := by
  cases hlookup : headers.lookup g with
  | none =>
      rw [Bidx.seedStack, hlookup, Bidx.seedStack]
      exact hok
  | some entry =>
      cases hcum : cum.lookup g with
      | some w =>
          rw [Bidx.seedStack, hlookup]
          simp only [hcum, Bidx.seedStack]
          exact hok
      | none =>
          cases hparent : parentCum cum entry with
          | none =>
              rw [Bidx.seedStack, hlookup]
              simp only [hcum, hparent, Bidx.seedStack]
              exact hok
          | some w =>
              rw [Bidx.seedStack, hlookup]
              simp only [hcum, hparent]
              rw [Bidx.seedStack, hlookup]
              simp only [hcum, hparent, Option.getD_some, Bidx.seedStack]
              obtain ⟨c, hc, hw⟩ := hok.child hlookup hparent
              exact hok.insert hc hw

theorem CumOk.seedCum (hok : CumOk headers cum) (candidates : List Hash32) :
    CumOk headers (Bidx.seedCum headers candidates cum) := by
  unfold Bidx.seedCum
  induction candidates generalizing cum with
  | nil => exact hok
  | cons g candidates ih => exact ih (hok.seedStack g)

/-- Filling in the path of a walk that has reached a header of known work. -/
theorem fillPath_ok {cur : Hash32} {path : List Hash32} {acc : W}
    (trail : Trail headers.parent h cur path) (hok : CumOk headers cum)
    (hbranch : Branch headers.parent cur c) (hacc : acc = headers.branchWork c)
    (hcur : cum.lookup cur ≠ none) :
    ∃ cum', fillPath headers acc path cum = .ok cum' ∧ CumOk headers cum' ∧ Grows cum cum' ∧
      cum'.lookup h ≠ none := by
  induction trail generalizing cum c acc with
  | start => exact ⟨cum, rfl, hok, .refl cum, hcur⟩
  | @up a b path _ hlink ih =>
      obtain ⟨e, hlookup, -, -⟩ := Headers.lookup_of_parent_child hlink
      have hwork : acc + e.work = headers.branchWork (c ++ [a]) := by
        rw [Headers.branchWork_snoc hlookup, hacc]
      have hchild : Branch headers.parent a (c ++ [a]) := .child hlink hbranch
      obtain ⟨cum', hfill, hok', hgrows, hh⟩ :=
        ih (hok.insert hchild hwork) hchild hwork (by simp)
      refine ⟨cum', ?_, hok', (grows_insert _ _ _).trans hgrows, hh⟩
      rw [fillPath, hlookup]
      exact hfill

/-- A walk ends within as many rounds as there are headers, keeps the memo right,
and enters its header whenever that has a branch. -/
theorem walkCum_ok (hacyclic : Acyclic headers.parent) {fuel : Nat} {cur : Hash32}
    {path : List Hash32} (trail : Trail headers.parent h cur path)
    (hfuel : headers.keys.length < fuel + path.length) (hok : CumOk headers cum) :
    ∃ r cum', walkCum headers h fuel cur path cum = .ok (r, cum') ∧ CumOk headers cum' ∧
      Grows cum cum' ∧ ∀ c, Branch headers.parent h c → cum'.lookup h ≠ none := by
  have hlength : path.length ≤ headers.keys.length :=
    trail.length_le hacyclic fun a ha => Headers.mem_keys_of_parent ha
  induction fuel generalizing cur path with
  | zero => omega
  | succ fuel ih =>
      unfold walkCum
      cases hcum : cum.lookup cur with
      | some w =>
          obtain ⟨c, hc, hw⟩ := hok cur w hcum
          obtain ⟨cum', hfill, hok', hgrows, hh⟩ :=
            fillPath_ok trail hok hc hw (by simp [hcum])
          refine ⟨cum'.lookup h, cum', ?_, hok', hgrows, fun _ _ => hh⟩
          simp only [hfill]
          rfl
      | none =>
          cases hlookup : headers.lookup cur with
          | none =>
              refine ⟨none, cum, rfl, hok, .refl cum, ?_⟩
              intro c hc
              obtain ⟨c', hc'⟩ := trail.branch_cur hc
              have hmem : cur ∈ c' := List.mem_of_getElem? hc'.getElem?_last
              have hpresent := hc'.present_of_mem hmem
              rw [Headers.parent, hlookup, Option.map_none] at hpresent
              contradiction
          | some e =>
              simp only
              by_cases hzero : e.prev = Hash32.zero
              · have hroot : Branch headers.parent cur [cur] :=
                  .root (Headers.parent_of_root hlookup hzero)
                have hw : e.work = headers.branchWork [cur] :=
                  (Headers.branchWork_root hlookup).symm
                obtain ⟨cum', hfill, hok', hgrows, hh⟩ :=
                  fillPath_ok trail (hok.insert hroot hw) hroot hw (by simp)
                refine ⟨cum'.lookup h, cum', ?_, hok', (grows_insert _ _ _).trans hgrows,
                  fun _ _ => hh⟩
                simp only [if_pos hzero, hfill]
                rfl
              · have hnext : Trail headers.parent h e.prev (cur :: path) :=
                  .up trail (Headers.parent_of_child hlookup hzero)
                rw [if_neg hzero]
                exact ih hnext (by rw [List.length_cons]; omega)
                  (hnext.length_le hacyclic fun a ha => Headers.mem_keys_of_parent ha)

theorem resolveCum_ok (hacyclic : Acyclic headers.parent) {fuel : Nat}
    (hfuel : headers.keys.length < fuel) (h : Hash32) (hok : CumOk headers cum) :
    ∃ r cum', resolveCum headers fuel h cum = .ok (r, cum') ∧ CumOk headers cum' ∧
      Grows cum cum' ∧ ∀ c, Branch headers.parent h c → cum'.lookup h ≠ none := by
  unfold resolveCum
  cases hcum : cum.lookup h with
  | some w => exact ⟨some w, cum, rfl, hok, .refl cum, fun _ _ => by simp [hcum]⟩
  | none =>
      cases hlookup : headers.lookup h with
      | none =>
          refine ⟨none, cum, rfl, hok, .refl cum, ?_⟩
          intro c hc
          have hmem : h ∈ c := List.mem_of_getElem? hc.getElem?_last
          have hpresent := hc.present_of_mem hmem
          rw [Headers.parent, hlookup, Option.map_none] at hpresent
          contradiction
      | some entry =>
          simp only
          by_cases hzero : entry.prev = Hash32.zero
          · rw [if_pos hzero]
            have hparent : parentCum cum entry = some 0 := by rw [parentCum, if_pos hzero]
            obtain ⟨c, hc, hw⟩ := hok.child hlookup hparent
            exact ⟨_, _, rfl, hok.insert hc hw, grows_insert _ _ _, fun _ _ => by simp⟩
          · rw [if_neg hzero]
            exact walkCum_ok hacyclic .start (by simpa using hfuel) hok

/-- Resolving every header. -/
theorem resolveAll_ok (hacyclic : Acyclic headers.parent) {fuel : Nat}
    (hfuel : headers.keys.length < fuel) (hashes : List Hash32) (hok : CumOk headers cum) :
    ∃ cum', resolveAll headers fuel hashes cum = .ok cum' ∧ CumOk headers cum' ∧
      Grows cum cum' ∧
      ∀ h ∈ hashes, ∀ c, Branch headers.parent h c → cum'.lookup h ≠ none := by
  induction hashes generalizing cum with
  | nil => exact ⟨cum, rfl, hok, .refl cum, fun _ h => by cases h⟩
  | cons h hashes ih =>
      obtain ⟨r, cum₁, hresolve, hok₁, hgrows₁, hh⟩ := resolveCum_ok hacyclic hfuel h hok
      obtain ⟨cum₂, hrest, hok₂, hgrows₂, hall⟩ := ih hok₁
      refine ⟨cum₂, ?_, hok₂, hgrows₁.trans hgrows₂, ?_⟩
      · rw [resolveAll, hresolve]
        exact hrest
      · intro k hk c hc
        rcases List.mem_cons.mp hk with rfl | hrestMem
        · exact hgrows₂ k (hh c hc)
        · exact hall k hrestMem c hc

end Memo

/-! ## The tip and the walk back -/

section Tip

variable {headers : Headers W}

omit [AddMonoid W] in
/-- One step keeps a tip at least as heavy, or takes the entry over every other. -/
theorem heavier_cases [LinearOrder W] (tip : Option (Hash32 × W)) (e : Sigma fun _ : Hash32 => W) :
    (heavier tip e = tip ∧ ∃ h w, tip = some (h, w) ∧ e.2 ≤ w) ∨
      (heavier tip e = some (e.1, e.2) ∧ ∀ h w, tip = some (h, w) → w ≤ e.2) := by
  unfold heavier
  cases tip with
  | none => exact .inr ⟨rfl, fun _ _ h => by cases h⟩
  | some t =>
      obtain ⟨h, w⟩ := t
      simp only
      by_cases hle : e.2 ≤ w
      · exact .inl ⟨if_pos hle, h, w, rfl, hle⟩
      · refine .inr ⟨if_neg hle, ?_⟩
        intro h' w' htip
        cases htip
        exact le_of_not_ge hle

omit [AddMonoid W] in
/-- The scan for the tip ends at an entry that none outweighs. -/
theorem foldl_heavier [LinearOrder W] (l : List (Sigma fun _ : Hash32 => W))
    (tip : Option (Hash32 × W)) :
    (l.foldl heavier tip = none → tip = none ∧ l = []) ∧
      ∀ h w, l.foldl heavier tip = some (h, w) →
        (tip = some (h, w) ∨ ⟨h, w⟩ ∈ l) ∧ (∀ h' w', tip = some (h', w') → w' ≤ w) ∧
          ∀ e ∈ l, e.2 ≤ w := by
  induction l generalizing tip with
  | nil =>
      refine ⟨fun h => ⟨h, rfl⟩, ?_⟩
      intro h w hfold
      rw [List.foldl_nil] at hfold
      refine ⟨.inl hfold, ?_, fun e he => by cases he⟩
      intro h' w' htip
      rw [hfold] at htip
      cases htip
      exact le_rfl
  | cons e l ih =>
      rw [List.foldl_cons]
      obtain ⟨hnone, hsome⟩ := ih (heavier tip e)
      have hstep := heavier_cases tip e
      constructor
      · intro hfold
        obtain ⟨hheavier, -⟩ := hnone hfold
        rcases hstep with ⟨hsame, h, w, htip, -⟩ | ⟨hnew, -⟩
        · rw [hsame, htip] at hheavier
          contradiction
        · rw [hnew] at hheavier
          contradiction
      · intro h w hfold
        obtain ⟨hfrom, hbound, hall⟩ := hsome h w hfold
        rcases hstep with ⟨hsame, h₀, w₀, htip, hle⟩ | ⟨hnew, hold⟩
        · rw [hsame] at hfrom hbound
          refine ⟨hfrom.imp_right (List.mem_cons_of_mem _), hbound, ?_⟩
          intro e' he'
          rcases List.mem_cons.mp he' with rfl | hmem
          · exact hle.trans (hbound h₀ w₀ htip)
          · exact hall e' hmem
        · rw [hnew] at hfrom hbound
          have hew : e.2 ≤ w := hbound e.1 e.2 rfl
          refine ⟨.inr ?_, ?_, ?_⟩
          · rcases hfrom with heq | hmem
            · cases heq
              exact List.mem_cons_self
            · exact List.mem_cons_of_mem _ hmem
          · intro h' w' htip
            exact (hold h' w' htip).trans hew
          · intro e' he'
            rcases List.mem_cons.mp he' with rfl | hmem
            · exact hew
            · exact hall e' hmem

omit [AddMonoid W] in
/-- The walk back from a header with a branch returns that branch. -/
theorem walkBack_ok {h : Hash32} {c : List Hash32} (hbranch : Branch headers.parent h c)
    {fuel : Nat} (hfuel : c.length ≤ fuel) (chain : List Hash32) :
    walkBack headers fuel h chain = .ok (c ++ chain) := by
  induction hbranch generalizing fuel chain with
  | root hroot =>
      obtain ⟨e, hlookup, hzero⟩ := Headers.lookup_of_parent_root hroot
      obtain ⟨fuel, rfl⟩ : ∃ n, fuel = n + 1 := ⟨fuel - 1, by simp at hfuel; omega⟩
      rw [walkBack, hlookup]
      simp only [if_pos hzero, List.singleton_append]
  | @child h p c hlink hparent ih =>
      obtain ⟨e, hlookup, hne, rfl⟩ := Headers.lookup_of_parent_child hlink
      rw [List.length_append, List.length_singleton] at hfuel
      obtain ⟨fuel, rfl⟩ : ∃ n, fuel = n + 1 := ⟨fuel - 1, by omega⟩
      have hpresent := hparent.present_of_mem (List.mem_of_getElem? hparent.getElem?_last)
      obtain ⟨e', he'⟩ : ∃ e', headers.lookup e.prev = some e' := by
        rw [Headers.parent, ne_eq, Option.map_eq_none_iff] at hpresent
        exact Option.ne_none_iff_exists'.mp hpresent
      rw [walkBack, hlookup]
      simp only [if_neg hne, he']
      rw [ih (by omega), List.append_assoc, List.singleton_append]

omit [AddMonoid W] in
theorem locations_ok {chain : List Hash32} (h : ∀ a ∈ chain, headers.parent a ≠ none) :
    ∃ ls, locations headers chain = .ok ls ∧
      List.Forall₂ (fun a l => ∃ e, headers.lookup a = some e ∧ l = e.location) chain ls := by
  induction chain with
  | nil => exact ⟨[], rfl, .nil⟩
  | cons a chain ih =>
      obtain ⟨ls, hls, hall⟩ := ih fun b hb => h b (List.mem_cons_of_mem _ hb)
      obtain ⟨e, he⟩ : ∃ e, headers.lookup a = some e := by
        have hpresent := h a List.mem_cons_self
        rw [Headers.parent, ne_eq, Option.map_eq_none_iff] at hpresent
        exact Option.ne_none_iff_exists'.mp hpresent
      refine ⟨e.location :: ls, ?_, .cons ⟨e, he, rfl⟩ hall⟩
      rw [locations, he]
      simp only [hls]
      rfl

end Tip

/-! ## The scan -/

section Scanning

variable (D : Digests) (work : BlockHeader → W)

/-- The first-scanned record with a given hash. -/
def firstSeen (D : Digests) (records : List BlkRecord) (h : Hash32) : Option BlkRecord :=
  records.find? fun rec => rec.hash D = h

/-- The map entry of a record. -/
def BlkRecord.entry (work : BlockHeader → W) (rec : BlkRecord) : HeaderEntry W :=
  ⟨rec.header.prevHash, rec.location, work rec.header⟩

omit [AddMonoid W] in
theorem scanRecords_ok (records : List BlkRecord) (scan : Scan W) :
    scanRecords D work (records.map .ok) scan = .ok (records.foldl (scanRecord D work) scan) := by
  induction records generalizing scan with
  | nil => rfl
  | cons rec records ih =>
      rw [List.map_cons, scanRecords, ih, List.foldl_cons]

omit [AddMonoid W] in
/-- Scanning adds what was not there yet. -/
theorem lookup_scanRecords (records : List BlkRecord) (scan : Scan W) (h : Hash32) :
    (records.foldl (scanRecord D work) scan).headers.lookup h =
      (scan.headers.lookup h).or ((firstSeen D records h).map (BlkRecord.entry work)) := by
  induction records generalizing scan with
  | nil => simp [firstSeen]
  | cons rec records ih =>
      rw [List.foldl_cons, ih, firstSeen, firstSeen, List.find?_cons]
      by_cases hh : rec.hash D = h
      · subst hh
        cases hold : scan.headers.lookup (rec.hash D) with
        | some e => simp [scanRecord, hold]
        | none => simp [scanRecord, hold, BlkRecord.entry]
      · have hsame : (scanRecord D work scan rec).headers.lookup h = scan.headers.lookup h := by
          unfold scanRecord
          cases scan.headers.lookup (rec.hash D) with
          | some e => rfl
          | none => exact AList.lookup_insert_ne (Ne.symm hh)
        simp [hsame, hh]

omit [AddMonoid W] in
/-- A directory whose files all read: the map holds every hash's first record. -/
theorem scanFiles_ok (files : List (List BlkRecord)) (scan : Scan W) :
    ∃ scan', scanFiles D work (files.map BlkFile.ofRecords) scan = .ok scan' ∧
      ∀ h, scan'.headers.lookup h =
        (scan.headers.lookup h).or
          ((firstSeen D files.flatten h).map (BlkRecord.entry work)) := by
  induction files generalizing scan with
  | nil => exact ⟨scan, rfl, fun h => by simp [firstSeen]⟩
  | cons records files ih =>
      obtain ⟨scan', hscan, hlookup⟩ := ih (records.foldl (scanRecord D work)
        { scan with filesScanned := scan.filesScanned + 1 })
      refine ⟨scan', ?_, ?_⟩
      · rw [List.map_cons, BlkFile.ofRecords, scanFiles, scanRecords_ok]
        exact hscan
      · intro h
        rw [hlookup, lookup_scanRecords, List.flatten_cons, firstSeen, firstSeen, firstSeen,
          List.find?_append, Option.or_assoc, Option.map_or]

end Scanning

/-! ## The result -/

/-- The parent links of the first-scanned records. -/
def recordParent (D : Digests) (records : List BlkRecord) (h : Hash32) :
    Option (Option Hash32) :=
  (firstSeen D records h).map fun rec =>
    if rec.header.prevHash = Hash32.zero then none else some rec.header.prevHash

/-- The work of the first-scanned records of a list of hashes. -/
def recordWork (D : Digests) (work : BlockHeader → W) (records : List BlkRecord)
    (c : List Hash32) : W :=
  (c.map fun h => ((firstSeen D records h).map fun rec => work rec.header).getD 0).sum

/-- `chain` is the main chain of the records, and the index and the statistics
describe it. -/
structure IsMainChain [LinearOrder W] (D : Digests) (work : BlockHeader → W)
    (records : List BlkRecord) (chain : List Hash32) (index : ChainIndex)
    (stats : ChainBuildStats) : Prop where
  root : ∀ h, chain[0]? = some h →
    ∃ rec, firstSeen D records h = some rec ∧ rec.header.prevHash = Hash32.zero
  linked : ∀ i h, chain[i + 1]? = some h →
    ∃ rec, firstSeen D records h = some rec ∧ chain[i]? = some rec.header.prevHash
  byHeight : List.Forall₂
    (fun h location => ∃ rec, firstSeen D records h = some rec ∧ location = rec.location)
    chain index.byHeight
  hashToHeight : ∀ h height, index.hashToHeight.lookup h = some height ↔
    ∃ i, chain[i]? = some h ∧ height = UInt32.ofNat i
  tipHash : chain[chain.length - 1]? = some stats.tipHash
  tipHeight : stats.tipHeight = UInt32.ofNat (chain.length - 1)
  uniqueBlocks : stats.uniqueBlocks = (records.map (BlkRecord.hash D)).dedup.length
  orphans : stats.orphans + chain.length = stats.uniqueBlocks
  heaviest : ∀ h c, Branch (recordParent D records) h c →
    recordWork D work records c ≤ recordWork D work records chain

/-- The link from a record's hash to its parent's. -/
def PrevLink (D : Digests) (records : List BlkRecord) (a b : Hash32) : Prop :=
  ∃ rec ∈ records, rec.hash D = a ∧ rec.header.prevHash = b

section Result

variable {D : Digests} {work : BlockHeader → W} {records : List BlkRecord}
  {headers : Headers W}

omit [AddMonoid W] in
theorem firstSeen_eq_some {h : Hash32} {rec : BlkRecord} (hrec : firstSeen D records h = some rec) :
    rec ∈ records ∧ rec.hash D = h := by
  refine ⟨List.mem_of_find?_eq_some hrec, ?_⟩
  simpa using List.find?_some hrec

omit [AddMonoid W] in
theorem firstSeen_isSome {rec : BlkRecord} (hrec : rec ∈ records) :
    ∃ rec', firstSeen D records (rec.hash D) = some rec' := by
  apply Option.isSome_iff_exists.mp
  rw [firstSeen, List.find?_isSome]
  exact ⟨rec, hrec, by simp⟩

theorem recordParent_eq_root {h : Hash32} :
    recordParent D records h = some none ↔
      ∃ rec, firstSeen D records h = some rec ∧ rec.header.prevHash = Hash32.zero := by
  constructor
  · intro hparent
    obtain ⟨rec, hrec, hprev⟩ := Option.map_eq_some_iff.mp hparent
    refine ⟨rec, hrec, ?_⟩
    by_contra hne
    rw [if_neg hne] at hprev
    contradiction
  · rintro ⟨rec, hrec, hzero⟩
    rw [recordParent, hrec, Option.map_some, if_pos hzero]

theorem recordParent_eq_link {h p : Hash32} (hparent : recordParent D records h = some (some p)) :
    ∃ rec, firstSeen D records h = some rec ∧ rec.header.prevHash = p := by
  obtain ⟨rec, hrec, hprev⟩ := Option.map_eq_some_iff.mp hparent
  refine ⟨rec, hrec, ?_⟩
  split at hprev
  · contradiction
  · exact Option.some.inj hprev

omit [AddMonoid W] in
theorem parent_eq_recordParent
    (hlookup : ∀ h, headers.lookup h = (firstSeen D records h).map (BlkRecord.entry work)) :
    headers.parent = recordParent D records := by
  funext h
  rw [Headers.parent, recordParent, hlookup, Option.map_map]
  rfl

theorem branchWork_eq_recordWork
    (hlookup : ∀ h, headers.lookup h = (firstSeen D records h).map (BlkRecord.entry work))
    (c : List Hash32) : headers.branchWork c = recordWork D work records c := by
  simp only [Headers.branchWork, recordWork, hlookup, Option.map_map]
  rfl

omit [AddMonoid W] in
theorem keys_perm_dedup
    (hlookup : ∀ h, headers.lookup h = (firstSeen D records h).map (BlkRecord.entry work)) :
    headers.keys.Perm (records.map (BlkRecord.hash D)).dedup := by
  rw [List.perm_ext_iff_of_nodup headers.keys_nodup (List.nodup_dedup _)]
  intro h
  rw [List.mem_dedup]
  change h ∈ headers ↔ _
  rw [← AList.lookup_isSome, hlookup, Option.isSome_map]
  constructor
  · intro hsome
    obtain ⟨rec, hrec⟩ := Option.isSome_iff_exists.mp hsome
    obtain ⟨hmem, rfl⟩ := firstSeen_eq_some hrec
    exact List.mem_map_of_mem hmem
  · intro hmem
    obtain ⟨rec, hrec, rfl⟩ := List.mem_map.mp hmem
    exact Option.isSome_iff_exists.mpr (firstSeen_isSome hrec)

omit [AddMonoid W] in
/-- The links of the map are links of the records, so they run in no circle
either. -/
theorem acyclic_parent (hacyclic : ∀ a, ¬Relation.TransGen (PrevLink D records) a a)
    (hlookup : ∀ h, headers.lookup h = (firstSeen D records h).map (BlkRecord.entry work)) :
    Acyclic headers.parent := by
  intro a hcircle
  apply hacyclic a
  refine Relation.TransGen.mono ?_ a a hcircle
  intro b b' hlink
  obtain ⟨e, he, -, rfl⟩ := Headers.lookup_of_parent_child hlink
  rw [hlookup] at he
  obtain ⟨rec, hrec, rfl⟩ := Option.map_eq_some_iff.mp he
  obtain ⟨hmem, hhash⟩ := firstSeen_eq_some hrec
  exact ⟨rec, hmem, hhash, rfl⟩

/-- The height map of a chain without repetitions. -/
theorem lookup_heights {chain : List Hash32} (hnodup : chain.Nodup) (h : Hash32)
    (height : UInt32) :
    (insertAll ∅ (chain.mapIdx fun i h => (h, UInt32.ofNat i)) :
        AList fun _ : Hash32 => UInt32).lookup h = some height ↔
      ∃ i, chain[i]? = some h ∧ height = UInt32.ofNat i := by
  have hkeys : (chain.mapIdx fun i h => (h, UInt32.ofNat i)).map Prod.fst = chain := by
    apply List.ext_getElem?
    intro i
    rw [List.getElem?_map, List.getElem?_mapIdx, Option.map_map]
    simp [Function.comp_def]
  have hmem : ∀ e : Hash32 × UInt32, e ∈ (chain.mapIdx fun i h => (h, UInt32.ofNat i)) ↔
      ∃ i, chain[i]? = some e.1 ∧ e.2 = UInt32.ofNat i := by
    intro e
    rw [List.mem_mapIdx]
    constructor
    · rintro ⟨i, hi, rfl⟩
      exact ⟨i, List.getElem?_eq_getElem hi, rfl⟩
    · rintro ⟨i, hi, he⟩
      obtain ⟨hlt, hget⟩ := List.getElem?_eq_some_iff.mp hi
      exact ⟨i, hlt, by rw [hget, ← he]⟩
  constructor
  · intro hlookup
    have hin : h ∈ (chain.mapIdx fun i h => (h, UInt32.ofNat i)).map Prod.fst := by
      by_contra hnot
      rw [lookup_insertAll_of_notMem hnot, AList.lookup_empty] at hlookup
      contradiction
    obtain ⟨v, hv, hentry⟩ := lookup_insertAll_of_mem (m := ∅) hin
    rw [hlookup] at hv
    obtain rfl := Option.some.inj hv
    exact (hmem (h, height)).mp hentry
  · intro hex
    apply lookup_insertAll_of_nodup
    · rw [hkeys]
      exact hnodup
    · exact (hmem (h, height)).mpr hex

end Result

/-- Over a memo that holds exactly the branches, the scan for the tip finds a
heaviest branch. -/
theorem exists_tip [LinearOrder W] {headers : Headers W} {cum : CumWork W} {r : Hash32}
    {c : List Hash32} (order : IterOrder Hash32 W) (hok : CumOk headers cum)
    (hcomplete : ∀ h c, Branch headers.parent h c → cum.lookup h ≠ none)
    (hroot : Branch headers.parent r c) :
    ∃ tipHash w chain, (order.list cum).foldl heavier none = some (tipHash, w) ∧
      Branch headers.parent tipHash chain ∧
      ∀ h c, Branch headers.parent h c → headers.branchWork c ≤ headers.branchWork chain := by
  have hentry : ∀ h c, Branch headers.parent h c →
      ⟨h, headers.branchWork c⟩ ∈ order.list cum := by
    intro h c hc
    obtain ⟨w, hw⟩ := Option.ne_none_iff_exists'.mp (hcomplete h c hc)
    obtain ⟨c', hc', rfl⟩ := hok h w hw
    rw [(order.perm cum).mem_iff, hc.unique hc']
    exact AList.mem_lookup_iff.mp hw
  obtain ⟨hnone, hsome⟩ := foldl_heavier (order.list cum) none
  cases htip : (order.list cum).foldl heavier none with
  | none =>
      have hmem := hentry r c hroot
      rw [(hnone htip).2] at hmem
      cases hmem
  | some tip =>
      obtain ⟨tipHash, w⟩ := tip
      obtain ⟨hfrom, -, hmax⟩ := hsome tipHash w htip
      have hmem : ⟨tipHash, w⟩ ∈ cum.entries :=
        (order.perm cum).mem_iff.mp (hfrom.resolve_left (by simp))
      obtain ⟨chain, hchain, rfl⟩ := hok tipHash w (AList.mem_lookup_iff.mpr hmem)
      exact ⟨tipHash, _, chain, rfl, hchain, fun h c hc => hmax _ (hentry h c hc)⟩

/-- The call put together from its parts. -/
theorem buildChainIndex_eq [LinearOrder W] {D : Digests} {work : BlockHeader → W}
    {orders : ChainOrders W} {fuel : Nat} {files : List BlkFile} {scan : Scan W}
    {cum : CumWork W} {tipHash : Hash32} {w : W} {chain : List Hash32}
    {ls : List BlockLocation} (hfiles : files ≠ [])
    (hscan : scanFiles D work files ⟨∅, 0, 0⟩ = .ok scan)
    (hcum : resolveAll scan.headers fuel ((orders.keys.list scan.headers).map Sigma.fst)
      (seedCum scan.headers (genesisCandidates orders.candidates scan.headers) ∅) = .ok cum)
    (htip : (orders.works.list cum).foldl heavier none = some (tipHash, w))
    (hchain : walkBack scan.headers fuel tipHash [] = .ok chain)
    (hls : locations scan.headers chain = .ok ls) :
    buildChainIndex D work orders fuel files = .ok (
      ⟨ls, insertAll ∅ (chain.mapIdx fun i h => (h, UInt32.ofNat i))⟩,
      ⟨scan.totalRecords, scan.headers.keys.length, scan.headers.keys.length - chain.length,
        scan.filesScanned, UInt32.ofNat chain.length - 1, tipHash⟩) := by
  cases files with
  | nil => contradiction
  | cons file files =>
      simp only [buildChainIndex, hscan, bind, Except.bind, hcum, htip, hchain, hls]
      rfl

section HeaderPass

variable (D : Digests) (work : BlockHeader → W) {files : List (List BlkRecord)}

/-- The scan and the memo of a call over readable files without circles: the memo
holds exactly the works of the branches. -/
structure Resolved (orders : ChainOrders W) (files : List (List BlkRecord)) (fuel : Nat)
    (scan : Scan W) (cum : CumWork W) : Prop where
  scanned : scanFiles D work (files.map BlkFile.ofRecords) ⟨∅, 0, 0⟩ = .ok scan
  lookup : ∀ h, scan.headers.lookup h =
    (firstSeen D files.flatten h).map (BlkRecord.entry work)
  resolved : resolveAll scan.headers fuel ((orders.keys.list scan.headers).map Sigma.fst)
    (seedCum scan.headers (genesisCandidates orders.candidates scan.headers) ∅) = .ok cum
  cumOk : CumOk scan.headers cum
  complete : ∀ h c, Branch scan.headers.parent h c → cum.lookup h ≠ none
  keys_lt_fuel : scan.headers.keys.length < fuel

theorem exists_resolved (orders : ChainOrders W)
    (hacyclic : ∀ a, ¬Relation.TransGen (PrevLink D files.flatten) a a)
    {fuel : Nat} (hfuel : files.flatten.length < fuel) :
    ∃ scan cum, Resolved D work orders files fuel scan cum := by
  obtain ⟨scan, hscan, hlookup⟩ := scanFiles_ok D work files ⟨∅, 0, 0⟩
  simp only [AList.lookup_empty, Option.none_or] at hlookup
  have hkeysFuel : scan.headers.keys.length < fuel := by
    have hsub := (List.dedup_sublist (files.flatten.map (BlkRecord.hash D))).length_le
    rw [List.length_map] at hsub
    rw [(keys_perm_dedup hlookup).length_eq]
    omega
  obtain ⟨cum, hcum, hok, -, hall⟩ := resolveAll_ok (acyclic_parent hacyclic hlookup) hkeysFuel
    ((orders.keys.list scan.headers).map Sigma.fst)
    ((CumOk.empty scan.headers).seedCum (genesisCandidates orders.candidates scan.headers))
  refine ⟨scan, cum, hscan, hlookup, hcum, hok, ?_, hkeysFuel⟩
  intro h c hc
  have hmemKeys : h ∈ scan.headers.keys := Headers.mem_keys_of_parent
    (hc.present_of_mem (List.mem_of_getElem? hc.getElem?_last))
  exact hall h (((orders.keys.perm scan.headers).map Sigma.fst).mem_iff.mpr hmemKeys) c hc

variable {D work}

/-- A root among the records is a root of the forest: a hash has one header. -/
theorem branch_of_root
    (hcollision : ∀ rec ∈ files.flatten, ∀ rec' ∈ files.flatten,
      rec.hash D = rec'.hash D → rec.headerRaw = rec'.headerRaw)
    {rec : BlkRecord} (hrec : rec ∈ files.flatten) (hzero : rec.header.prevHash = Hash32.zero) :
    Branch (recordParent D files.flatten) (rec.hash D) [rec.hash D] := by
  obtain ⟨first, hfirst⟩ : ∃ first, firstSeen D files.flatten (rec.hash D) = some first :=
    firstSeen_isSome hrec
  obtain ⟨hfirstMem, hfirstHash⟩ := firstSeen_eq_some hfirst
  apply Branch.root
  have hsame : first.header = rec.header :=
    congrArg BlockHeader.parse (hcollision first hfirstMem rec hrec hfirstHash)
  exact recordParent_eq_root.mpr ⟨first, hfirst, hsame ▸ hzero⟩

/-- Once the tip scan has ended in a heaviest branch, the call returns that branch. -/
theorem isMainChain_of_tip [LinearOrder W] {orders : ChainOrders W} {fuel : Nat} {scan : Scan W}
    {cum : CumWork W} {tipHash : Hash32} {w : W} {chain : List Hash32}
    (hres : Resolved D work orders files fuel scan cum)
    (htip : (orders.works.list cum).foldl heavier none = some (tipHash, w))
    (hchain : Branch (recordParent D files.flatten) tipHash chain)
    (hmax : ∀ h c, Branch (recordParent D files.flatten) h c →
      recordWork D work files.flatten c ≤ recordWork D work files.flatten chain) :
    ∃ index stats,
      buildChainIndex D work orders fuel (files.map BlkFile.ofRecords) = .ok (index, stats) ∧
      IsMainChain D work files.flatten chain index stats := by
  have hlookup := hres.lookup
  have hparent := parent_eq_recordParent hlookup
  have hkeys := keys_perm_dedup hlookup
  have hpresent : ∀ a ∈ chain, scan.headers.parent a ≠ none := by
    intro a ha
    rw [hparent]
    exact hchain.present_of_mem ha
  have hchainLength : chain.length ≤ scan.headers.keys.length :=
    (List.subperm_of_subset hchain.nodup
      fun a ha => Headers.mem_keys_of_parent (hpresent a ha)).length_le
  have hbranch : Branch scan.headers.parent tipHash chain := by
    rw [hparent]
    exact hchain
  have hback := walkBack_ok hbranch (hchainLength.trans hres.keys_lt_fuel.le) []
  rw [List.append_nil] at hback
  obtain ⟨ls, hls, hlocs⟩ := locations_ok hpresent
  have hpos := hchain.length_pos
  have hfiles : files.map BlkFile.ofRecords ≠ [] := by
    intro hempty
    rw [List.map_eq_nil_iff.mp hempty] at hkeys
    have hnil : scan.headers.keys = [] := List.perm_nil.mp hkeys
    rw [hnil, List.length_nil] at hchainLength
    omega
  refine ⟨_, _, buildChainIndex_eq hfiles hres.scanned hres.resolved htip hback hls, ?_⟩
  constructor
  case root =>
    intro h hh
    exact recordParent_eq_root.mp (hchain.first hh)
  case linked =>
    intro i h hh
    obtain ⟨a, ha, hlink⟩ := hchain.link hh
    obtain ⟨rec', hrec', hprev⟩ := recordParent_eq_link hlink
    exact ⟨rec', hrec', by rw [ha, hprev]⟩
  case byHeight =>
    refine hlocs.imp ?_
    rintro h l ⟨e, he, rfl⟩
    rw [hlookup] at he
    obtain ⟨rec', hrec', rfl⟩ := Option.map_eq_some_iff.mp he
    exact ⟨rec', hrec', rfl⟩
  case hashToHeight => exact lookup_heights hchain.nodup
  case tipHash => exact hchain.getElem?_last
  case tipHeight =>
    change UInt32.ofNat chain.length - 1 = UInt32.ofNat (chain.length - 1)
    rw [UInt32.ofNat_sub (by omega : 1 ≤ chain.length)]
    rfl
  case uniqueBlocks => exact hkeys.length_eq
  case orphans =>
    change scan.headers.keys.length - chain.length + chain.length = scan.headers.keys.length
    omega
  case heaviest => exact hmax

/-- Wherever a branch exists, the tip scan ends in a heaviest one. -/
theorem Resolved.exists_tip [LinearOrder W] {orders : ChainOrders W} {fuel : Nat} {scan : Scan W}
    {cum : CumWork W} (hres : Resolved D work orders files fuel scan cum) {r : Hash32}
    {c : List Hash32} (hroot : Branch (recordParent D files.flatten) r c) :
    ∃ tipHash w chain, (orders.works.list cum).foldl heavier none = some (tipHash, w) ∧
      Branch (recordParent D files.flatten) tipHash chain ∧
      ∀ h c, Branch (recordParent D files.flatten) h c →
        recordWork D work files.flatten c ≤ recordWork D work files.flatten chain := by
  have hparent := parent_eq_recordParent hres.lookup
  obtain ⟨tipHash, w, chain, htip, hchain, hmax⟩ :=
    Bidx.exists_tip orders.works hres.cumOk hres.complete (hparent ▸ hroot)
  refine ⟨tipHash, w, chain, htip, hparent ▸ hchain, ?_⟩
  intro h c hc
  have hle := hmax h c (hparent ▸ hc)
  rwa [branchWork_eq_recordWork hres.lookup, branchWork_eq_recordWork hres.lookup] at hle

end HeaderPass

/-- For every set of records whose `prev` links run in no circle and that holds a
root, in whatever files and orders it is read and whatever orders the hash maps
are iterated in, the header pass returns the heaviest rooted chain. -/
theorem buildChainIndex_mainChain [LinearOrder W] (D : Digests) (work : BlockHeader → W)
    (orders : ChainOrders W) (files : List (List BlkRecord))
    (hacyclic : ∀ a, ¬Relation.TransGen (PrevLink D files.flatten) a a)
    (hcollision : ∀ rec ∈ files.flatten, ∀ rec' ∈ files.flatten,
      rec.hash D = rec'.hash D → rec.headerRaw = rec'.headerRaw)
    (hroot : ∃ rec ∈ files.flatten, rec.header.prevHash = Hash32.zero)
    (fuel : Nat) (hfuel : files.flatten.length < fuel) :
    ∃ index stats chain,
      buildChainIndex D work orders fuel (files.map BlkFile.ofRecords) = .ok (index, stats) ∧
      IsMainChain D work files.flatten chain index stats := by
  obtain ⟨rec, hrec, hzero⟩ := hroot
  obtain ⟨scan, cum, hres⟩ := exists_resolved D work orders hacyclic hfuel
  obtain ⟨tipHash, w, chain, htip, hchain, hmax⟩ :=
    hres.exists_tip (branch_of_root hcollision hrec hzero)
  obtain ⟨index, stats, hbuild, hmain⟩ := isMainChain_of_tip hres htip hchain hmax
  exact ⟨index, stats, chain, hbuild, hmain⟩

/-! Two files with a root, a copy of it and two competing children. -/

def sampleRoot : BlkRecord := ⟨⟨0, 0, 88⟩, headerBytes Hash32.zero 1⟩

def sampleRootHash : Hash32 :=
  wordBytes 32 0x0899da936d4e10843f2f082245c6cc8418a562448b6822fc5d24ce59e46c0f89

def sampleLeft : BlkRecord := ⟨⟨0, 88, 88⟩, headerBytes sampleRootHash 2⟩

def sampleRight : BlkRecord := ⟨⟨1, 0, 88⟩, headerBytes sampleRootHash 3⟩

def sampleFiles : List (List BlkRecord) :=
  [[sampleRoot, sampleLeft], [{ sampleRoot with location := ⟨1, 88, 88⟩ }, sampleRight]]

/-- SHA-256 on the three headers and on their first digests. -/
def sampleHeaderDigests : Digests :=
  let first0 := wordBytes 32 0xd8256641748f03fc40ce5dc44bcecbbb9a19182dd42a8b972623bc5a56676cb3
  let first1 := wordBytes 32 0x6b8b103aca038efa5c980f3dc7ecd833031ab1ea88486fb388e3b332d6d33bfe
  let first2 := wordBytes 32 0x603ba93fee507b31104891cb34f173560a48e4a14785e3236115fadcdbd90a89
  Digests.ofTable [
    (sampleRoot.headerRaw.toList, first0),
    (first0.toList, sampleRootHash),
    (sampleLeft.headerRaw.toList, first1),
    (first1.toList,
      wordBytes 32 0xfa283d2c07099172a97eefcd26f9d6b7b7e4695d1705116ca5949829a56c3a59),
    (sampleRight.headerRaw.toList, first2),
    (first2.toList,
      wordBytes 32 0x9b675d23f2bded9263dd209bdd48027d9830a69cb4844ad2a6185a6925782831)]

/-- Links that lower a rank run in no circle. -/
theorem acyclic_of_rank {D : Digests} {records : List BlkRecord} (rank : Hash32 → Nat)
    (h : ∀ rec ∈ records, rank rec.header.prevHash < rank (rec.hash D)) (a : Hash32) :
    ¬Relation.TransGen (PrevLink D records) a a := by
  have hlt : ∀ a b, Relation.TransGen (PrevLink D records) a b → rank b < rank a := by
    intro a b hab
    induction hab with
    | single hlink =>
        obtain ⟨rec, hrec, rfl, rfl⟩ := hlink
        exact h rec hrec
    | tail _ hlink ih =>
        obtain ⟨rec, hrec, rfl, rfl⟩ := hlink
        exact (h rec hrec).trans ih
  intro hcircle
  exact lt_irrefl _ (hlt a a hcircle)

theorem sampleFiles_acyclic (a : Hash32) :
    ¬Relation.TransGen (PrevLink sampleHeaderDigests sampleFiles.flatten) a a :=
  acyclic_of_rank (fun h => if h = Hash32.zero then 0 else if h = sampleRootHash then 1 else 2)
    (by decide +kernel) a

theorem buildChainIndex_mainChain_sample :
    sampleFiles.flatten.length = 4 ∧ ∃ index stats chain,
      buildChainIndex sampleHeaderDigests (fun header => header.nonce.toNat)
        ⟨.stored _ _, .stored _ _, .stored _ _⟩ 5 (sampleFiles.map BlkFile.ofRecords) =
          .ok (index, stats) ∧
      IsMainChain sampleHeaderDigests (fun header => header.nonce.toNat) sampleFiles.flatten
        chain index stats := by
  refine ⟨rfl, buildChainIndex_mainChain sampleHeaderDigests _ _ sampleFiles sampleFiles_acyclic
    ?_ ?_ 5 (by decide)⟩
  · decide +kernel
  · exact ⟨sampleRoot, List.mem_cons_self, by decide +kernel⟩

end Bidx
