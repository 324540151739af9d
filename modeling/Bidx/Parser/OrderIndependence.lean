import Bidx.Parser.MainChain

/-!
# When the header pass does not depend on the order

Records are found in some order over some files, and three hash maps are iterated
in orders of their own.  The parent links and the works depend on the headers alone,
so every run ends in a heaviest branch of one and the same forest.  Among heaviest
branches the scan for the tip keeps the first it meets: the run's result is settled
exactly when there is only one.
-/

namespace Bidx

open KeyValue ParentForest

variable {W : Type}

/-! ## Records with the same headers -/

/-- Two lists of records hold the same headers, wherever and however often. -/
def SameHeaders (records records' : List BlkRecord) : Prop :=
  ∀ raw, raw ∈ records.map BlkRecord.headerRaw ↔ raw ∈ records'.map BlkRecord.headerRaw

/-- Records with one hash have one header. -/
def NoCollision (D : Digests) (records : List BlkRecord) : Prop :=
  ∀ rec ∈ records, ∀ rec' ∈ records,
    rec.hash D = rec'.hash D → rec.headerRaw = rec'.headerRaw

section Arrangement

variable {D : Digests} {work : BlockHeader → W} {records records' : List BlkRecord}

theorem SameHeaders.exists_mem (hsame : SameHeaders records records') {rec : BlkRecord}
    (hrec : rec ∈ records) : ∃ rec' ∈ records', rec'.headerRaw = rec.headerRaw :=
  List.mem_map.mp ((hsame rec.headerRaw).mp (List.mem_map_of_mem hrec))

theorem SameHeaders.noCollision (hsame : SameHeaders records' records)
    (hcollision : NoCollision D records) : NoCollision D records' := by
  intro rec hrec rec' hrec' hhash
  obtain ⟨r, hr, hraw⟩ := hsame.exists_mem hrec
  obtain ⟨r', hr', hraw'⟩ := hsame.exists_mem hrec'
  rw [← hraw, ← hraw']
  apply hcollision r hr r' hr'
  rw [BlkRecord.hash, BlkRecord.hash, hraw, hraw']
  exact hhash

theorem SameHeaders.acyclic (hsame : SameHeaders records' records)
    (hacyclic : ∀ a, ¬Relation.TransGen (PrevLink D records) a a) (a : Hash32) :
    ¬Relation.TransGen (PrevLink D records') a a := by
  intro hcircle
  apply hacyclic a
  refine Relation.TransGen.mono ?_ a a hcircle
  rintro b b' ⟨rec, hrec, hhash, hprev⟩
  obtain ⟨r, hr, hraw⟩ := hsame.exists_mem hrec
  refine ⟨r, hr, ?_, ?_⟩
  · rw [BlkRecord.hash, hraw]
    exact hhash
  · rw [BlkRecord.header, hraw]
    exact hprev

/-- The header found under a hash is the only one there is. -/
theorem firstSeen_headerRaw_iff (hcollision : NoCollision D records) (h : Hash32)
    (raw : Bytes blockHeaderLen) :
    (firstSeen D records h).map BlkRecord.headerRaw = some raw ↔
      raw ∈ records.map BlkRecord.headerRaw ∧ dsha256 D raw.toList = h := by
  constructor
  · intro hfirst
    obtain ⟨rec, hrec, rfl⟩ := Option.map_eq_some_iff.mp hfirst
    obtain ⟨hmem, hhash⟩ := firstSeen_eq_some hrec
    exact ⟨List.mem_map_of_mem hmem, hhash⟩
  · rintro ⟨hmem, rfl⟩
    obtain ⟨rec, hrec, rfl⟩ := List.mem_map.mp hmem
    obtain ⟨first, hfirst⟩ := firstSeen_isSome (D := D) hrec
    obtain ⟨hfirstMem, hfirstHash⟩ := firstSeen_eq_some hfirst
    show (firstSeen D records (rec.hash D)).map BlkRecord.headerRaw = _
    rw [hfirst, Option.map_some, hcollision first hfirstMem rec hrec hfirstHash]

theorem SameHeaders.firstSeen_eq (hsame : SameHeaders records' records)
    (hcollision : NoCollision D records) (h : Hash32) :
    (firstSeen D records' h).map BlkRecord.headerRaw =
      (firstSeen D records h).map BlkRecord.headerRaw := by
  ext raw
  rw [firstSeen_headerRaw_iff (hsame.noCollision hcollision), firstSeen_headerRaw_iff hcollision,
    hsame raw]

theorem SameHeaders.recordParent_eq (hsame : SameHeaders records' records)
    (hcollision : NoCollision D records) : recordParent D records' = recordParent D records := by
  have hraw : ∀ records, recordParent D records = fun h =>
      ((firstSeen D records h).map BlkRecord.headerRaw).map fun raw =>
        if (BlockHeader.parse raw).prevHash = Hash32.zero then none
        else some (BlockHeader.parse raw).prevHash := by
    intro records
    funext h
    rw [Option.map_map]
    rfl
  rw [hraw, hraw]
  funext h
  rw [hsame.firstSeen_eq hcollision]

theorem SameHeaders.recordWork_eq [AddMonoid W] (hsame : SameHeaders records' records)
    (hcollision : NoCollision D records) (c : List Hash32) :
    recordWork D work records' c = recordWork D work records c := by
  have hraw : ∀ records, recordWork D work records c =
      (c.map fun h => (((firstSeen D records h).map BlkRecord.headerRaw).map fun raw =>
        work (BlockHeader.parse raw)).getD 0).sum := by
    intro records
    simp only [Option.map_map]
    rfl
  rw [hraw, hraw]
  simp only [hsame.firstSeen_eq hcollision]

end Arrangement

/-! ## Heaviest branches and the tip -/

section Heaviest

variable [AddMonoid W] [LinearOrder W] {D : Digests} {work : BlockHeader → W}
  {records : List BlkRecord} {files : List (List BlkRecord)} {h : Hash32} {c : List Hash32}

/-- `c` leads from a root to `h`, and no rooted header has more cumulative work. -/
structure Heaviest (D : Digests) (work : BlockHeader → W) (records : List BlkRecord) (h : Hash32)
    (c : List Hash32) : Prop where
  branch : Branch (recordParent D records) h c
  max : ∀ h' c', Branch (recordParent D records) h' c' →
    recordWork D work records c' ≤ recordWork D work records c

theorem SameHeaders.heaviest_iff {records' : List BlkRecord} (hsame : SameHeaders records' records)
    (hcollision : NoCollision D records) :
    Heaviest D work records' h c ↔ Heaviest D work records h c := by
  constructor
  · rintro ⟨hbranch, hmax⟩
    rw [hsame.recordParent_eq hcollision] at hbranch hmax
    simp only [hsame.recordWork_eq hcollision] at hmax
    exact ⟨hbranch, hmax⟩
  · rintro ⟨hbranch, hmax⟩
    constructor
    · rw [hsame.recordParent_eq hcollision]
      exact hbranch
    · simp only [hsame.recordParent_eq hcollision, hsame.recordWork_eq hcollision]
      exact hmax

/-- The index gives the heights of `chain`. -/
structure ListsChain (chain : List Hash32) (index : ChainIndex) (stats : ChainBuildStats) :
    Prop where
  length : index.byHeight.length = chain.length
  heights : ∀ h height, index.hashToHeight.lookup h = some height ↔
    ∃ i, chain[i]? = some h ∧ height = UInt32.ofNat i
  tip : chain[chain.length - 1]? = some stats.tipHash

/-- The header pass returns an index of `chain`. -/
def ReturnsChain (r : Except ChainStop (ChainIndex × ChainBuildStats)) (chain : List Hash32) :
    Prop :=
  ∃ index stats, r = .ok (index, stats) ∧ ListsChain chain index stats

omit [AddMonoid W] [LinearOrder W] in
/-- Two runs that return one chain return the same chains. -/
theorem ReturnsChain.congr {r r' : Except ChainStop (ChainIndex × ChainBuildStats)}
    {chain : List Hash32} (hr : ReturnsChain r chain) (hr' : ReturnsChain r' chain)
    (other : List Hash32) (hother : ReturnsChain r other) : ReturnsChain r' other := by
  obtain ⟨index, stats, rfl, hlists⟩ := hr
  obtain ⟨index', stats', rfl, hlists'⟩ := hr'
  obtain ⟨_, _, heq, hotherLists⟩ := hother
  cases heq
  refine ⟨index', stats', rfl, ?_, ?_, ?_⟩
  · rw [hlists'.length, ← hlists.length, hotherLists.length]
  · intro h height
    rw [hlists'.heights, ← hlists.heights, hotherLists.heights]
  · rw [hotherLists.tip, ← hlists.tip, hlists'.tip]

omit [AddMonoid W] in
theorem foldl_heavier_of_max {l : List (Sigma fun _ : Hash32 => W)} {w : W}
    (hmax : ∀ e ∈ l, e.2 ≤ w) : l.foldl heavier (some (h, w)) = some (h, w) := by
  induction l with
  | nil => rfl
  | cons e l ih =>
      have hkeep : heavier (some (h, w)) e = some (h, w) := if_pos (hmax e List.mem_cons_self)
      rw [List.foldl_cons, hkeep]
      exact ih fun e' he' => hmax e' (List.mem_cons_of_mem _ he')

omit [AddMonoid W] in
/-- Iterated from `h` on, the memo gives `h` as the tip when no entry outweighs it. -/
theorem foldl_heavier_startingAt {cum : CumWork W} {w : W} (hw : cum.lookup h = some w)
    (hmax : ∀ k v, cum.lookup k = some v → v ≤ w) :
    ((IterOrder.startingAt h).list cum).foldl heavier none = some (h, w) := by
  have hle : ∀ e ∈ (IterOrder.startingAt h).list cum, e.2 ≤ w := by
    intro e he
    rw [((IterOrder.startingAt h).perm cum).mem_iff] at he
    exact hmax e.1 e.2 (AList.mem_lookup_iff.mpr he)
  obtain ⟨rest, hlist⟩ := IterOrder.list_startingAt hw
  rw [hlist] at hle ⊢
  rw [List.foldl_cons]
  exact foldl_heavier_of_max fun e he => hle e (List.mem_cons_of_mem _ he)

theorem IsMainChain.listsChain {chain : List Hash32} {index : ChainIndex}
    {stats : ChainBuildStats} (hmain : IsMainChain D work records chain index stats) :
    ListsChain chain index stats :=
  ⟨hmain.byHeight.length_eq.symm, hmain.hashToHeight, hmain.tipHash⟩

/-- Whatever the orders, a call over records with a root returns a heaviest branch. -/
theorem exists_returnsChain (orders : ChainOrders W)
    (hacyclic : ∀ a, ¬Relation.TransGen (PrevLink D files.flatten) a a) {fuel : Nat}
    (hfuel : files.flatten.length < fuel) {r : Hash32}
    (hroot : Branch (recordParent D files.flatten) r c) :
    ∃ h chain, Heaviest D work files.flatten h chain ∧
      ReturnsChain (buildChainIndex D work orders fuel (files.map BlkFile.ofRecords)) chain := by
  obtain ⟨scan, cum, hres⟩ := exists_resolved D work orders hacyclic hfuel
  obtain ⟨tipHash, w, chain, htip, hchain, hmax⟩ := hres.exists_tip hroot
  obtain ⟨index, stats, hbuild, hmain⟩ := isMainChain_of_tip hres htip hchain hmax
  exact ⟨tipHash, chain, ⟨hchain, hmax⟩, index, stats, hbuild, hmain.listsChain⟩

/-- Every heaviest branch is what some iteration order returns. -/
theorem returnsChain_of_heaviest (orders : ChainOrders W)
    (hacyclic : ∀ a, ¬Relation.TransGen (PrevLink D files.flatten) a a) {fuel : Nat}
    (hfuel : files.flatten.length < fuel) (hheaviest : Heaviest D work files.flatten h c) :
    ReturnsChain (buildChainIndex D work { orders with works := .startingAt h } fuel
      (files.map BlkFile.ofRecords)) c := by
  obtain ⟨scan, cum, hres⟩ :=
    exists_resolved D work { orders with works := .startingAt h } hacyclic hfuel
  have hparent := parent_eq_recordParent hres.lookup
  have hcum : cum.lookup h = some (recordWork D work files.flatten c) := by
    obtain ⟨w, hw⟩ := Option.ne_none_iff_exists'.mp
      (hres.complete h c (hparent ▸ hheaviest.branch))
    obtain ⟨c', hc', rfl⟩ := hres.cumOk h w hw
    rw [hparent] at hc'
    rw [hw, branchWork_eq_recordWork hres.lookup, hc'.unique hheaviest.branch]
  have htip := foldl_heavier_startingAt hcum (by
    intro k v hv
    obtain ⟨c', hc', rfl⟩ := hres.cumOk k v hv
    rw [branchWork_eq_recordWork hres.lookup]
    exact hheaviest.max k c' (hparent ▸ hc'))
  obtain ⟨index, stats, hbuild, hmain⟩ :=
    isMainChain_of_tip hres htip hheaviest.branch hheaviest.max
  exact ⟨index, stats, hbuild, hmain.listsChain⟩

/-- Without a root there is no chain to return. -/
theorem not_returnsChain_of_rootless (orders : ChainOrders W)
    (hacyclic : ∀ a, ¬Relation.TransGen (PrevLink D files.flatten) a a) {fuel : Nat}
    (hfuel : files.flatten.length < fuel)
    (hrootless : ∀ h c, ¬Branch (recordParent D files.flatten) h c) (chain : List Hash32) :
    ¬ReturnsChain (buildChainIndex D work orders fuel (files.map BlkFile.ofRecords)) chain := by
  obtain ⟨scan, cum, hres⟩ := exists_resolved D work orders hacyclic hfuel
  have hempty : orders.works.list cum = [] := by
    apply List.eq_nil_iff_forall_not_mem.mpr
    intro e he
    rw [(orders.works.perm cum).mem_iff] at he
    obtain ⟨c, hc, -⟩ := hres.cumOk e.1 e.2 (AList.mem_lookup_iff.mpr he)
    rw [parent_eq_recordParent hres.lookup] at hc
    exact hrootless e.1 c hc
  rintro ⟨index, stats, hbuild, -⟩
  cases hfiles : files.map BlkFile.ofRecords with
  | nil =>
      rw [hfiles] at hbuild
      cases hbuild
  | cons file rest =>
      have hscan := hres.scanned
      rw [hfiles] at hbuild hscan
      simp only [buildChainIndex, hscan, bind, Except.bind, hres.resolved, hempty,
        List.foldl_nil] at hbuild
      cases hbuild

end Heaviest

/-- Over all arrangements of the same headers and all iteration orders, the header
pass returns one and the same chain. -/
def OrderIndependent [AddMonoid W] [LinearOrder W] (D : Digests) (work : BlockHeader → W)
    (records : List BlkRecord) : Prop :=
  ∀ (files files' : List (List BlkRecord)) (orders orders' : ChainOrders W) (fuel fuel' : Nat),
    SameHeaders files.flatten records → SameHeaders files'.flatten records →
    files.flatten.length < fuel → files'.flatten.length < fuel' →
    ∀ chain,
      ReturnsChain (buildChainIndex D work orders fuel (files.map BlkFile.ofRecords)) chain ↔
      ReturnsChain (buildChainIndex D work orders' fuel' (files'.map BlkFile.ofRecords)) chain

section Independence

variable [AddMonoid W] [LinearOrder W] {D : Digests} {work : BlockHeader → W}
  {records : List BlkRecord}

/-- Two heaviest headers are told apart by the order the memo is iterated in. -/
theorem OrderIndependent.heaviest_unique {h h' : Hash32} {c c' : List Hash32}
    (hindependent : OrderIndependent D work records)
    (hacyclic : ∀ a, ¬Relation.TransGen (PrevLink D records) a a)
    (hh : Heaviest D work records h c) (hh' : Heaviest D work records h' c') : h = h' := by
  have hfiles : [records].flatten = records := by simp
  have hsame : SameHeaders [records].flatten records := by
    rw [hfiles]
    exact fun _ => Iff.rfl
  have hfuel : [records].flatten.length < records.length + 1 := by simp
  -- One iteration order starts at the one header, one at the other.
  have horders : ∀ {k : Hash32} {d : List Hash32}, Heaviest D work records k d →
      ReturnsChain (buildChainIndex D work ⟨.stored _ _, .stored _ _, .startingAt k⟩
        (records.length + 1) ([records].map BlkFile.ofRecords)) d := by
    intro k d hd
    rw [← hfiles] at hacyclic hd
    exact returnsChain_of_heaviest ⟨.stored _ _, .stored _ _, .stored _ _⟩ hacyclic hfuel hd
  have hother := (hindependent [records] [records]
    ⟨.stored _ _, .stored _ _, .startingAt h⟩ ⟨.stored _ _, .stored _ _, .startingAt h'⟩
    _ _ hsame hsame hfuel hfuel c).mp (horders hh)
  obtain ⟨index, stats, hbuild, hlists⟩ := horders hh'
  obtain ⟨index', stats', hbuild', hlists'⟩ := hother
  rw [hbuild] at hbuild'
  cases hbuild'
  have htip := hlists'.tip
  rw [hh.branch.getElem?_last, ← hlists.tip, hh'.branch.getElem?_last] at htip
  exact Option.some.inj htip

theorem orderIndependent_of_unique
    (hacyclic : ∀ a, ¬Relation.TransGen (PrevLink D records) a a)
    (hcollision : NoCollision D records)
    (hunique : ∀ h c h' c', Heaviest D work records h c → Heaviest D work records h' c' → h = h') :
    OrderIndependent D work records := by
  intro files files' orders orders' fuel fuel' hsame hsame' hfuel hfuel' chain
  have hacyc := hsame.acyclic hacyclic
  have hacyc' := hsame'.acyclic hacyclic
  by_cases hroot : ∃ r c, Branch (recordParent D records) r c
  · obtain ⟨r, c, hc⟩ := hroot
    obtain ⟨h, d, hd, hreturns⟩ : ∃ h d, Heaviest D work files.flatten h d ∧
        ReturnsChain (buildChainIndex D work orders fuel (files.map BlkFile.ofRecords)) d :=
      exists_returnsChain orders hacyc hfuel (by rw [hsame.recordParent_eq hcollision]; exact hc)
    obtain ⟨h', d', hd', hreturns'⟩ : ∃ h' d', Heaviest D work files'.flatten h' d' ∧
        ReturnsChain (buildChainIndex D work orders' fuel' (files'.map BlkFile.ofRecords)) d' :=
      exists_returnsChain orders' hacyc' hfuel'
        (by rw [hsame'.recordParent_eq hcollision]; exact hc)
    rw [hsame.heaviest_iff hcollision] at hd
    rw [hsame'.heaviest_iff hcollision] at hd'
    obtain rfl := hunique h d h' d' hd hd'
    obtain rfl := hd.branch.unique hd'.branch
    exact ⟨hreturns.congr hreturns' chain, hreturns'.congr hreturns chain⟩
  · have hrootless : ∀ h c, ¬Branch (recordParent D records) h c :=
      fun h c hc => hroot ⟨h, c, hc⟩
    have hnone : ¬ReturnsChain (buildChainIndex D work orders fuel
        (files.map BlkFile.ofRecords)) chain :=
      not_returnsChain_of_rootless orders hacyc hfuel
        (by rw [hsame.recordParent_eq hcollision]; exact hrootless) chain
    have hnone' : ¬ReturnsChain (buildChainIndex D work orders' fuel'
        (files'.map BlkFile.ofRecords)) chain :=
      not_returnsChain_of_rootless orders' hacyc' hfuel'
        (by rw [hsame'.recordParent_eq hcollision]; exact hrootless) chain
    exact ⟨fun hc => absurd hc hnone, fun hc => absurd hc hnone'⟩

end Independence

/-- The header pass is independent of the order exactly when a single rooted header
has the most cumulative work. -/
theorem buildChainIndex_orderIndependent [AddMonoid W] [LinearOrder W] (D : Digests)
    (work : BlockHeader → W) (records : List BlkRecord)
    (hacyclic : ∀ a, ¬Relation.TransGen (PrevLink D records) a a)
    (hcollision : NoCollision D records) :
    OrderIndependent D work records ↔
      ∀ h c h' c', Heaviest D work records h c → Heaviest D work records h' c' → h = h' :=
  ⟨fun hindependent _ _ _ _ hh hh' => hindependent.heaviest_unique hacyclic hh hh',
    orderIndependent_of_unique hacyclic hcollision⟩

/-! A root with two children: weighed by their nonces one child is the heavier, weighed
alike they tie. -/

def sampleFork : List BlkRecord := [sampleRoot, sampleLeft, sampleRight]

theorem sampleFork_acyclic (a : Hash32) :
    ¬Relation.TransGen (PrevLink sampleHeaderDigests sampleFork) a a := by
  refine acyclic_of_rank
    (fun h => if h = Hash32.zero then 0 else if h = sampleRootHash then 1 else 2) ?_ a
  decide +kernel

theorem sampleFork_noCollision : NoCollision sampleHeaderDigests sampleFork := by
  unfold NoCollision
  decide +kernel

def sampleLeftHash : Hash32 :=
  wordBytes 32 0xfa283d2c07099172a97eefcd26f9d6b7b7e4695d1705116ca5949829a56c3a59

def sampleRightHash : Hash32 :=
  wordBytes 32 0x9b675d23f2bded9263dd209bdd48027d9830a69cb4844ad2a6185a6925782831

theorem sampleFork_parent {h : Hash32} {p : Option Hash32}
    (hparent : recordParent sampleHeaderDigests sampleFork h = some p) :
    (h = sampleRootHash ∧ p = none) ∨
      (h = sampleLeftHash ∨ h = sampleRightHash) ∧ p = some sampleRootHash := by
  obtain ⟨rec, hrec, rfl⟩ := Option.map_eq_some_iff.mp hparent
  obtain ⟨hmem, rfl⟩ := firstSeen_eq_some hrec
  have hall : ∀ rec ∈ sampleFork,
      (rec.hash sampleHeaderDigests = sampleRootHash ∧ rec.header.prevHash = Hash32.zero) ∨
        (rec.hash sampleHeaderDigests = sampleLeftHash ∨
          rec.hash sampleHeaderDigests = sampleRightHash) ∧
          rec.header.prevHash ≠ Hash32.zero ∧ rec.header.prevHash = sampleRootHash := by
    decide +kernel
  rcases hall rec hmem with ⟨hroot, hzero⟩ | ⟨hchild, hne, hprev⟩
  · exact .inl ⟨hroot, if_pos hzero⟩
  · exact .inr ⟨hchild, by rw [if_neg hne, hprev]⟩

theorem sampleFork_branches {h : Hash32} {c : List Hash32} :
    Branch (recordParent sampleHeaderDigests sampleFork) h c ↔
      (h = sampleRootHash ∧ c = [sampleRootHash]) ∨
        (h = sampleLeftHash ∨ h = sampleRightHash) ∧ c = [sampleRootHash, h] := by
  have hroot : Branch (recordParent sampleHeaderDigests sampleFork) sampleRootHash
      [sampleRootHash] := .root (by decide +kernel)
  constructor
  · intro hc
    cases hc with
    | root hparent =>
        rcases sampleFork_parent hparent with ⟨rfl, -⟩ | ⟨-, hp⟩
        · exact .inl ⟨rfl, rfl⟩
        · cases hp
    | child hlink hc =>
        rcases sampleFork_parent hlink with ⟨-, hp⟩ | ⟨hh, hp⟩
        · cases hp
        · obtain rfl := Option.some.inj hp
          rw [hc.unique hroot]
          exact .inr ⟨hh, rfl⟩
  · rintro (⟨rfl, rfl⟩ | ⟨rfl | rfl, rfl⟩)
    · exact hroot
    · exact .child (by decide +kernel) hroot
    · exact .child (by decide +kernel) hroot

/-- Two equally heavy children: which of them ends the chain depends on the order. -/
theorem sampleFork_order_dependent :
    (∀ a, ¬Relation.TransGen (PrevLink sampleHeaderDigests sampleFork) a a) ∧
      NoCollision sampleHeaderDigests sampleFork ∧
      ¬OrderIndependent sampleHeaderDigests (fun _ => (1 : Nat)) sampleFork := by
  refine ⟨sampleFork_acyclic, sampleFork_noCollision, ?_⟩
  intro hindependent
  have hheaviest : ∀ h, h = sampleLeftHash ∨ h = sampleRightHash →
      Heaviest sampleHeaderDigests (fun _ => (1 : Nat)) sampleFork h [sampleRootHash, h] := by
    intro h hh
    refine ⟨sampleFork_branches.mpr (.inr ⟨hh, rfl⟩), ?_⟩
    intro h' c' hc'
    rcases sampleFork_branches.mp hc' with ⟨rfl, rfl⟩ | ⟨rfl | rfl, rfl⟩ <;>
      rcases hh with rfl | rfl <;> decide +kernel
  have hsame := hindependent.heaviest_unique sampleFork_acyclic
    (hheaviest sampleLeftHash (.inl rfl)) (hheaviest sampleRightHash (.inr rfl))
  revert hsame
  decide +kernel

theorem buildChainIndex_orderIndependent_sample :
    OrderIndependent sampleHeaderDigests (fun header => header.nonce.toNat) sampleFork := by
  refine (buildChainIndex_orderIndependent _ _ _ sampleFork_acyclic sampleFork_noCollision).mpr ?_
  have hright : ∀ h c, Heaviest sampleHeaderDigests (fun header => header.nonce.toNat) sampleFork
      h c → h = sampleRightHash := by
    intro h c hheaviest
    have hle := hheaviest.max sampleRightHash [sampleRootHash, sampleRightHash]
      (sampleFork_branches.mpr (.inr ⟨.inr rfl, rfl⟩))
    rcases sampleFork_branches.mp hheaviest.branch with ⟨rfl, rfl⟩ | ⟨rfl | rfl, rfl⟩
    · revert hle
      decide +kernel
    · revert hle
      decide +kernel
    · rfl
  intro h c h' c' hh hh'
  rw [hright h c hh, hright h' c' hh']

end Bidx
