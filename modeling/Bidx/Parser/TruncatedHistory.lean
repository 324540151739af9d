import Bidx.Parser.MainChain

/-!
# The header pass over a truncated history

A pruned node or a partial copy has no genesis block: the parent of the lowest header
is absent.  The seed pass takes such a header for a candidate and the walk back stops
at one, but no work is ever entered for it or for anything above it.  The header pass
therefore returns a chain exactly when some header has a zero `prev_hash`; otherwise it
reports that there are no records.
-/

namespace Bidx

open KeyValue ParentForest

variable {W : Type}

/-- Some header in the map says that it has no parent. -/
def HasRoot (D : Digests) (records : List BlkRecord) : Prop :=
  ∃ rec, firstSeen D records (rec.hash D) = some rec ∧ rec.header.prevHash = Hash32.zero

/-- `chain` is a list of linked records from one whose parent is zero or absent, and the index
describes it. -/
structure IsLinkedChain (D : Digests) (records : List BlkRecord) (chain : List Hash32)
    (index : ChainIndex) : Prop where
  ne_nil : chain ≠ []
  start : ∀ h, chain[0]? = some h → ∃ rec, firstSeen D records h = some rec ∧
    (rec.header.prevHash = Hash32.zero ∨ firstSeen D records rec.header.prevHash = none)
  linked : ∀ i h, chain[i + 1]? = some h →
    ∃ rec, firstSeen D records h = some rec ∧ chain[i]? = some rec.header.prevHash
  byHeight : List.Forall₂
    (fun h location => ∃ rec, firstSeen D records h = some rec ∧ location = rec.location)
    chain index.byHeight
  hashToHeight : ∀ h height, index.hashToHeight.lookup h = some height ↔
    ∃ i, chain[i]? = some h ∧ height = UInt32.ofNat i

section Roots

variable {D : Digests} {records : List BlkRecord}

theorem hasRoot_iff_parent : HasRoot D records ↔ ∃ h, recordParent D records h = some none := by
  constructor
  · rintro ⟨rec, hfirst, hzero⟩
    exact ⟨rec.hash D, recordParent_eq_root.mpr ⟨rec, hfirst, hzero⟩⟩
  · rintro ⟨h, hroot⟩
    obtain ⟨rec, hfirst, hzero⟩ := recordParent_eq_root.mp hroot
    obtain ⟨-, rfl⟩ := firstSeen_eq_some hfirst
    exact ⟨rec, hfirst, hzero⟩

/-- Every branch has its root, so without roots there are no branches. -/
theorem not_branch_of_not_hasRoot (h : ¬HasRoot D records) (a : Hash32) (nodes : List Hash32) :
    ¬Branch (recordParent D records) a nodes := by
  intro hbranch
  obtain ⟨root, hfirst⟩ : ∃ root, nodes[0]? = some root :=
    ⟨_, List.getElem?_eq_getElem hbranch.length_pos⟩
  exact h (hasRoot_iff_parent.mpr ⟨root, hbranch.first hfirst⟩)

variable [AddMonoid W] [LinearOrder W] {work : BlockHeader → W} {chain : List Hash32}
  {index : ChainIndex} {stats : ChainBuildStats}

theorem IsMainChain.isLinkedChain (h : IsMainChain D work records chain index stats) :
    IsLinkedChain D records chain index where
  ne_nil := by
    rintro rfl
    have htip := h.tipHash
    contradiction
  start := by
    intro a ha
    obtain ⟨rec, hfirst, hzero⟩ := h.root a ha
    exact ⟨rec, hfirst, .inl hzero⟩
  linked := h.linked
  byHeight := h.byHeight
  hashToHeight := h.hashToHeight

end Roots

section HeaderPass

variable [AddMonoid W] [LinearOrder W]

omit [AddMonoid W] in
/-- A memo without entries leaves the scan for the tip with nothing. -/
theorem foldl_heavier_of_empty (order : IterOrder Hash32 W) {cum : CumWork W}
    (hempty : ∀ h, cum.lookup h = none) : (order.list cum).foldl heavier none = none := by
  have hnil : order.list cum = [] := by
    rw [List.eq_nil_iff_forall_not_mem]
    rintro ⟨h, w⟩ hmem
    have hentry := AList.mem_lookup_iff.mpr ((order.perm cum).mem_iff.mp hmem)
    rw [hempty h] at hentry
    contradiction
  rw [hnil, List.foldl_nil]

/-- Without a root every run that ends reports that there are no records. -/
theorem buildChainIndex_of_not_hasRoot (D : Digests) (work : BlockHeader → W)
    (orders : ChainOrders W) (files : List (List BlkRecord))
    (hacyclic : ∀ a, ¬Relation.TransGen (PrevLink D files.flatten) a a)
    (hfiles : files ≠ []) (hroot : ¬HasRoot D files.flatten) (fuel : Nat)
    (hfuel : files.flatten.length < fuel) :
    buildChainIndex D work orders fuel (files.map BlkFile.ofRecords) =
      .error (.error .noRecords) := by
  obtain ⟨scan, cum, hres⟩ := exists_resolved D work orders hacyclic hfuel
  have hempty : ∀ h, cum.lookup h = none := by
    intro h
    by_contra hne
    obtain ⟨w, hw⟩ := Option.ne_none_iff_exists'.mp hne
    obtain ⟨c, hc, -⟩ := hres.cumOk h w hw
    rw [parent_eq_recordParent hres.lookup] at hc
    exact not_branch_of_not_hasRoot hroot h c hc
  have htip := foldl_heavier_of_empty orders.works hempty
  have hscan := hres.scanned
  have hcum := hres.resolved
  cases files with
  | nil => contradiction
  | cons file files =>
      rw [List.map_cons] at hscan ⊢
      simp only [buildChainIndex, hscan, bind, Except.bind, hcum, htip]

/-- With a root every run returns a linked chain. -/
theorem buildChainIndex_of_hasRoot (D : Digests) (work : BlockHeader → W)
    (orders : ChainOrders W) (files : List (List BlkRecord))
    (hacyclic : ∀ a, ¬Relation.TransGen (PrevLink D files.flatten) a a)
    (hroot : HasRoot D files.flatten) (fuel : Nat) (hfuel : files.flatten.length < fuel) :
    ∃ index stats chain,
      buildChainIndex D work orders fuel (files.map BlkFile.ofRecords) = .ok (index, stats) ∧
      IsLinkedChain D files.flatten chain index := by
  obtain ⟨h, hparent⟩ := hasRoot_iff_parent.mp hroot
  obtain ⟨scan, cum, hres⟩ := exists_resolved D work orders hacyclic hfuel
  obtain ⟨tipHash, w, chain, htip, hchain, hmax⟩ := hres.exists_tip (.root hparent)
  obtain ⟨index, stats, hbuild, hmain⟩ := isMainChain_of_tip hres htip hchain hmax
  exact ⟨index, stats, chain, hbuild, hmain.isLinkedChain⟩

/-- **When the header pass finds a chain.**  Over any records without circles, whether or not the
parent of the lowest one is there, the call returns a linked chain, and does not claim that there
are no records, if and only if some header has a zero `prev_hash`. -/
theorem buildChainIndex_finds_chain_iff (D : Digests) (work : BlockHeader → W)
    (orders : ChainOrders W) (files : List (List BlkRecord))
    (hacyclic : ∀ a, ¬Relation.TransGen (PrevLink D files.flatten) a a)
    (hne : files.flatten ≠ []) (fuel : Nat) (hfuel : files.flatten.length < fuel) :
    ((∃ index stats chain,
        buildChainIndex D work orders fuel (files.map BlkFile.ofRecords) = .ok (index, stats) ∧
        IsLinkedChain D files.flatten chain index) ∧
      (buildChainIndex D work orders fuel (files.map BlkFile.ofRecords) =
        .error (.error .noRecords) → files.flatten = [])) ↔
      HasRoot D files.flatten := by
  have hfiles : files ≠ [] := by
    rintro rfl
    exact hne rfl
  constructor
  · rintro ⟨⟨index, stats, chain, hbuild, -⟩, -⟩
    by_contra hroot
    rw [buildChainIndex_of_not_hasRoot D work orders files hacyclic hfiles hroot fuel hfuel]
      at hbuild
    contradiction
  · intro hroot
    obtain ⟨index, stats, chain, hbuild, hchain⟩ :=
      buildChainIndex_of_hasRoot D work orders files hacyclic hroot fuel hfuel
    refine ⟨⟨index, stats, chain, hbuild, hchain⟩, fun hnone => ?_⟩
    rw [hbuild] at hnone
    contradiction

end HeaderPass

/-- The two files of the main chain, where the condition holds. -/
theorem buildChainIndex_finds_chain_sample :
    ((∃ index stats chain,
        buildChainIndex sampleHeaderDigests (fun header => header.nonce.toNat)
          ⟨.stored _ _, .stored _ _, .stored _ _⟩ 5 (sampleFiles.map BlkFile.ofRecords) =
            .ok (index, stats) ∧
        IsLinkedChain sampleHeaderDigests sampleFiles.flatten chain index) ∧
      (buildChainIndex sampleHeaderDigests (fun header => header.nonce.toNat)
        ⟨.stored _ _, .stored _ _, .stored _ _⟩ 5 (sampleFiles.map BlkFile.ofRecords) =
          .error (.error .noRecords) → sampleFiles.flatten = [])) ↔
      HasRoot sampleHeaderDigests sampleFiles.flatten :=
  buildChainIndex_finds_chain_iff sampleHeaderDigests _ _ sampleFiles sampleFiles_acyclic
    (by simp [sampleFiles]) 5 (by decide)

/-- One block record and no genesis block: the header pass says that there are no records. -/
theorem buildChainIndex_truncated :
    (∀ a, ¬Relation.TransGen (PrevLink sampleHeaderDigests [sampleLeft]) a a) ∧
      buildChainIndex sampleHeaderDigests (fun header => header.nonce.toNat)
        ⟨.stored _ _, .stored _ _, .stored _ _⟩ 2 [BlkFile.ofRecords [sampleLeft]] =
          .error (.error .noRecords) := by
  have hacyclic : ∀ a, ¬Relation.TransGen (PrevLink sampleHeaderDigests [sampleLeft]) a a :=
    acyclic_of_rank (fun h => if h = sampleRootHash then 0 else 1) (by decide +kernel)
  have hroot : ¬HasRoot sampleHeaderDigests [sampleLeft] := by
    rintro ⟨rec, hfirst, hzero⟩
    obtain rfl := List.mem_singleton.mp (firstSeen_eq_some hfirst).1
    exact absurd hzero (by decide +kernel)
  exact ⟨hacyclic, buildChainIndex_of_not_hasRoot sampleHeaderDigests _ _ [[sampleLeft]] hacyclic
    (List.cons_ne_nil _ _) hroot 2 (by decide)⟩

end Bidx
