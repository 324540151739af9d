import Bidx.Pipeline.BulkReplay

/-!
# Resuming a bulk parse

A parse over `0..a` followed by one over `a..b` leaves the same UTXO set as one parse
over `0..b`.  The part files are another matter: the second run starts in the part of
height `a` and creates its files, and `File::create` empties what the first run left
there.  No row is lost exactly when that part is new, that is when `a` is a part
boundary.
-/

namespace Bidx

open KeyValue

/-! ## The part files along the loop -/

/-- The rows pushed to a part. -/
def partRows (blocksPerPart part : Nat) (rows : List (Nat × FullBlock × List SpendRow)) : Rows :=
  .flatten ((rows.filter fun e => e.1 / blocksPerPart = part).map fun e => .ofBlock e.2.1 e.2.2)

section Parts

variable {blocksPerPart part : Nat} {rows rows' : List (Nat × FullBlock × List SpendRow)}

theorem partRows_append :
    partRows blocksPerPart part (rows ++ rows') =
      partRows blocksPerPart part rows ++ partRows blocksPerPart part rows' := by
  rw [partRows, List.filter_append, List.map_append, Rows.flatten_append]
  rfl

theorem partRows_eq_empty (h : ∀ e ∈ rows, e.1 / blocksPerPart ≠ part) :
    partRows blocksPerPart part rows = .empty := by
  have hfilter : rows.filter (fun e => e.1 / blocksPerPart = part) = [] :=
    List.filter_eq_nil_iff.mpr fun e he => by simpa using h e he
  rw [partRows, hfilter]
  rfl

theorem mem_partRows {row : BlockRow} :
    row ∈ (partRows blocksPerPart part rows).blocks ↔
      ∃ e ∈ rows, e.1 / blocksPerPart = part ∧ row = e.2.1.blockRow := by
  rw [partRows, Rows.blocks_flatten, List.mem_flatMap]
  simp only [List.mem_map, List.mem_filter, decide_eq_true_eq]
  constructor
  · rintro ⟨_, ⟨e, ⟨he, hpart⟩, rfl⟩, hrow⟩
    exact ⟨e, he, hpart, List.mem_singleton.mp hrow⟩
  · rintro ⟨e, he, hpart, rfl⟩
    exact ⟨_, ⟨e, ⟨he, hpart⟩, rfl⟩, List.mem_singleton_self _⟩

/-- The rows a log pushes for a part, by heights. -/
theorem pushedRows_eq_partRows {log : List SinkEvent}
    (h : pushes log = rows.map fun e => (e.1 / blocksPerPart, e.2)) (p : Nat) :
    pushedRows p log = partRows blocksPerPart p rows := by
  rw [pushedRows, partRows, h, List.filter_map, List.map_map]
  rfl

end Parts

section Loop

variable {D : Digests} {chain : List RawBlock} {blocksPerPart start : Nat} {store : UtxoStore}

/-- Over a range without gaps the part of the last height is open, and the parts created
are those of the first height and of the heights passed. -/
theorem openPart_upTo {count : Nat} {o : Output}
    (hblocks : ∀ height, start ≤ height → height < start + count →
      ∃ block, chainBlock D chain height = some block)
    (ho : o = (Output.initial blocksPerPart start store).upTo blocksPerPart (chainBlock D chain)
      start count) :
    o.part = (start + (count - 1)) / blocksPerPart ∧ OpenPart o.sink o.part ∧
      ∀ p, p ∈ createdParts o.sink ↔ p = start / blocksPerPart ∨
        ∃ height, start ≤ height ∧ height < start + count ∧ height / blocksPerPart = p := by
  induction count generalizing o with
  | zero =>
      subst ho
      refine ⟨rfl, .create _, fun p => ⟨fun hp => .inl (List.mem_singleton.mp hp), ?_⟩⟩
      rintro (rfl | ⟨height, hle, hlt, -⟩)
      · exact List.mem_singleton_self _
      · omega
  | succ count ih =>
      obtain ⟨block, hblock⟩ := hblocks (start + count) (by omega) (by omega)
      obtain ⟨hpart, hopen, hcreated⟩ :=
        ih (fun height hle hlt => hblocks height hle (by omega)) rfl
      rw [Output.upTo_succ hblock] at ho
      generalize (Output.initial blocksPerPart start store).upTo blocksPerPart
        (chainBlock D chain) start count = last at ho hpart hopen hcreated
      subst ho
      have hmono : (start + (count - 1)) / blocksPerPart ≤ (start + count) / blocksPerPart :=
        Nat.div_le_div_right (by omega)
      have hrotated : OpenPart (last.rotate blocksPerPart (start + count)).sink
            ((start + count) / blocksPerPart) ∧
          ∀ p, p ∈ createdParts (last.rotate blocksPerPart (start + count)).sink ↔
            p ∈ createdParts last.sink ∨ p = (start + count) / blocksPerPart := by
        unfold Output.rotate
        by_cases hsame : (start + count) / blocksPerPart = last.part
        · rw [if_pos hsame, hsame]
          exact ⟨hopen, fun p => ⟨.inl, fun hp => hp.elim id fun heq => heq ▸ hopen.created⟩⟩
        · rw [if_neg hsame]
          -- Parts grow with the heights, so a new part is above all created before.
          have hnew : (start + count) / blocksPerPart ∉ createdParts last.sink := by
            intro hmem
            have hfirst : start / blocksPerPart ≤ (start + (count - 1)) / blocksPerPart :=
              Nat.div_le_div_right (by omega)
            rcases (hcreated _).mp hmem with heq | ⟨height, -, hlt, heq⟩
            · omega
            · have hbelow : height / blocksPerPart ≤ (start + (count - 1)) / blocksPerPart :=
                Nat.div_le_div_right (by omega)
              omega
          exact ⟨hopen.rotate _ hnew, fun p => by simp [createdParts]⟩
      refine ⟨Output.part_rotate _ _ _, ?_, fun p => ?_⟩
      · show OpenPart ((last.rotate blocksPerPart (start + count)).sink ++ [_])
          (last.rotate blocksPerPart (start + count)).part
        rw [Output.part_rotate]
        exact hrotated.1.push _ _
      · show p ∈ createdParts ((last.rotate blocksPerPart (start + count)).sink ++ [_]) ↔ _
        rw [createdParts_append, show createdParts [SinkEvent.push _ _ _] = [] from rfl,
          List.append_nil, hrotated.2, hcreated]
        constructor
        · rintro ((hfirst | ⟨height, hle, hlt, heq⟩) | rfl)
          · exact .inl hfirst
          · exact .inr ⟨height, hle, by omega, heq⟩
          · exact .inr ⟨start + count, by omega, by omega, rfl⟩
        · rintro (hfirst | ⟨height, hle, hlt, rfl⟩)
          · exact .inl (.inl hfirst)
          · by_cases hlast : height = start + count
            · exact .inr (by rw [hlast])
            · exact .inl (.inr ⟨height, hle, by omega, rfl⟩)

variable {endHeight : Nat} {run : ParseRun}

/-- The parts of the heights of a range. -/
def partsOf (blocksPerPart start endHeight : Nat) : List Nat :=
  (List.range' start (endHeight - start)).map (· / blocksPerPart)

theorem mem_partsOf {p : Nat} : p ∈ partsOf blocksPerPart start endHeight ↔
    ∃ height, start ≤ height ∧ height < endHeight ∧ height / blocksPerPart = p := by
  simp only [partsOf, List.mem_map, List.mem_range'_1]
  constructor
  · rintro ⟨height, ⟨hle, hlt⟩, heq⟩
    exact ⟨height, hle, by omega, heq⟩
  · rintro ⟨height, hle, hlt, heq⟩
    exact ⟨height, ⟨hle, by omega⟩, heq⟩

/-- What a run leaves in the output directory: its rows in the parts it got to, and
what was there in every other part. -/
theorem ParsedRange.out_eq (h : ParsedRange D chain blocksPerPart start endHeight store run)
    (dir : OutDir) (p : Nat) :
    dir.after run.sink p = if p ∈ partsOf blocksPerPart start endHeight then
      partRows blocksPerPart p (filledRange enrich D chain start store.db.utxo (endHeight - start))
    else dir p := by
  have hlt := h.start_lt
  obtain ⟨o, hsink, ho⟩ := h.sink
  obtain ⟨-, hopen, hcreated⟩ := openPart_upTo
    (fun height hle hheight => h.blocks height hle (by omega)) ho
  have hparts : p ∈ createdParts run.sink ↔ p ∈ partsOf blocksPerPart start endHeight := by
    rw [hsink, createdParts_append, show createdParts [.finish o.part] = [] from rfl,
      List.append_nil, hcreated, mem_partsOf]
    constructor
    · rintro (rfl | ⟨height, hle, hbelow, heq⟩)
      · exact ⟨start, le_rfl, hlt, rfl⟩
      · exact ⟨height, hle, by omega, heq⟩
    · rintro ⟨height, hle, hbelow, heq⟩
      exact .inr ⟨height, hle, by omega, heq⟩
  have hclosed := hopen.closedLog o.part
  rw [← hsink] at hclosed
  rw [hclosed.files, pushedRows_eq_partRows h.pushes_eq]
  exact if_congr hparts rfl rfl

end Loop

/-! ## One run and two -/

section Resume

/-- `run_parse` over the heights from `start` up to `endHeight`, with any workers and any
surroundings, takes the directories `dirs` to `dirs'`. -/
def ParsesTo (W : Type) [AddMonoid W] [LinearOrder W] (D : Digests)
    (blockBytes : BlockLocation → Except BlkError (List UInt8)) (files : List (List BlkRecord))
    (chain : List RawBlock) (blocksPerPart start endHeight : Nat) (dirs dirs' : ParseDirs) : Prop :=
  ∃ (env : ParseEnv W) (cfg : ParseConfig), env.digests = D ∧ env.blockBytes = blockBytes ∧
    cfg.blocksPerPart = blocksPerPart ∧ KeepsAll D chain cfg ∧
    ParsesRange env cfg files start endHeight ∧
    runParseIn env cfg (files.map BlkFile.ofRecords) dirs = (.ok (), dirs')

/-- The same UTXO set, and the same rows of every entity. -/
structure SameOutput (dirs dirs' : ParseDirs) : Prop where
  utxo : dirs.utxo.utxo = dirs'.utxo.utxo
  rows : dirs.out.SameRows dirs'.out

variable {W : Type} [AddMonoid W] [LinearOrder W] {D : Digests}
  {blockBytes : BlockLocation → Except BlkError (List UInt8)} {files : List (List BlkRecord)}
  {chain : List RawBlock} {blocksPerPart start endHeight a b : Nat} {dirs dirs' : ParseDirs}

theorem ParsesTo.parsedRange
    (h : ParsesTo W D blockBytes files chain blocksPerPart start endHeight dirs dirs')
    (hchain : LinkedChain D chain) (hshared : SharedHashes D chain chain)
    (hfiles : HoldBlocks blockBytes files.flatten chain) :
    ∃ run, ParsedRange D chain blocksPerPart start endHeight (.openBulk dirs.utxo) run ∧
      dirs' = ⟨run.store.db, dirs.out.after run.sink⟩ := by
  obtain ⟨env, cfg, rfl, rfl, rfl, horphans, hrange, hrun⟩ := h
  obtain ⟨hresult, hdirs⟩ := Prod.mk.inj hrun
  exact ⟨_, runParse_parsedRange hchain hshared hfiles horphans hrange
    (UtxoStore.bulk_openBulk _) hresult, hdirs.symm⟩

/-- The rows of a chain's first blocks. -/
def chainRows (D : Digests) (chain : List RawBlock) (count : Nat) :
    List (Nat × FullBlock × List SpendRow) :=
  filledRange enrich D chain 0 (fun _ => none) count

/-- The rows of the blocks from `a` to `b`. -/
def laterRows (D : Digests) (chain : List RawBlock) (a b : Nat) :
    List (Nat × FullBlock × List SpendRow) :=
  filledRange enrich D chain a (replay D (chain.take a)) (b - a)

theorem chainRows_append (hab : a ≤ b) (hb : b ≤ chain.length) :
    chainRows D chain b = chainRows D chain a ++ laterRows D chain a b := by
  have hreplay := @replayRange_replay chain 0 a D (by omega)
  rw [Nat.zero_add] at hreplay
  have hsplit := filledRange_add enrich D chain 0 (fun _ => none) a (b - a)
  rw [Nat.zero_add, show a + (b - a) = b by omega,
    show replayRange D chain 0 (fun _ => none) a = _ from hreplay] at hsplit
  exact hsplit

theorem chainRows_height {count : Nat} {e : Nat × FullBlock × List SpendRow}
    (he : e ∈ chainRows D chain count) : e.1 < count := by
  have := (filledRange_heights he).2.1
  omega

theorem laterRows_height (hab : a ≤ b) {e : Nat × FullBlock × List SpendRow}
    (he : e ∈ laterRows D chain a b) : a ≤ e.1 ∧ e.1 < b := by
  obtain ⟨hle, hlt, -⟩ := filledRange_heights he
  exact ⟨hle, by omega⟩

/-- A run from the first height on, in fresh directories. -/
theorem ParsesTo.fresh (hchain : LinkedChain D chain) (hshared : SharedHashes D chain chain)
    (hfiles : HoldBlocks blockBytes files.flatten chain)
    (h : ParsesTo W D blockBytes files chain blocksPerPart 0 b .fresh dirs') :
    b ≤ chain.length ∧ (∀ height < b, ∃ block, chainBlock D chain height = some block) ∧
      dirs'.utxo = Db.fresh.withUtxo (replay D (chain.take b)) ∧
      ∀ p, dirs'.out p = partRows blocksPerPart p (chainRows D chain b) := by
  obtain ⟨run, hrun, rfl⟩ := h.parsedRange hchain hshared hfiles
  refine ⟨hrun.end_le, fun height hlt => hrun.blocks height (Nat.zero_le _) hlt,
    hrun.db_eq rfl, fun p => ?_⟩
  have hout := hrun.out_eq OutDir.fresh p
  show OutDir.fresh.after run.sink p = _
  rw [hout]
  by_cases hp : p ∈ partsOf blocksPerPart 0 b
  · rw [if_pos hp]
    rfl
  · rw [if_neg hp, partRows_eq_empty]
    · rfl
    · intro e he heq
      exact hp (mem_partsOf.mpr ⟨e.1, Nat.zero_le _, chainRows_height he, heq⟩)

/-- A run that goes on where one ended. -/
theorem ParsesTo.later (hchain : LinkedChain D chain) (hshared : SharedHashes D chain chain)
    (hfiles : HoldBlocks blockBytes files.flatten chain)
    (hdirs : dirs.utxo = Db.fresh.withUtxo (replay D (chain.take a)))
    (h : ParsesTo W D blockBytes files chain blocksPerPart a b dirs dirs') :
    a < b ∧ b ≤ chain.length ∧
      dirs'.utxo = Db.fresh.withUtxo (replay D (chain.take b)) ∧
      ∀ p, dirs'.out p = if p ∈ partsOf blocksPerPart a b then
        partRows blocksPerPart p (laterRows D chain a b) else dirs.out p := by
  obtain ⟨run, hrun, rfl⟩ := h.parsedRange hchain hshared hfiles
  have hstore : (UtxoStore.openBulk dirs.utxo).db.utxo = replay D (chain.take a) := by
    show dirs.utxo.utxo = _
    rw [hdirs]
    rfl
  refine ⟨hrun.start_lt, hrun.end_le, ?_, fun p => ?_⟩
  · show run.store.db = _
    rw [hrun.db_eq hstore]
    show dirs.utxo.withUtxo _ = _
    rw [hdirs]
    rfl
  · show dirs.out.after run.sink p = _
    rw [hrun.out_eq, hstore]
    rfl

/-- At a part boundary the second run starts in a part without rows. -/
theorem partRows_of_dvd (hdvd : blocksPerPart ∣ a) {p : Nat}
    (hp : p ∈ partsOf blocksPerPart a b) :
    partRows blocksPerPart p (chainRows D chain a) = .empty := by
  refine partRows_eq_empty fun e he heq => ?_
  obtain ⟨height, hle, -, rfl⟩ := mem_partsOf.mp hp
  obtain ⟨q, rfl⟩ := hdvd
  have hlt := chainRows_height he
  have hpos : 0 < blocksPerPart := Nat.pos_of_mul_pos_right (Nat.lt_of_le_of_lt (Nat.zero_le _) hlt)
  have hbelow : e.1 / blocksPerPart < q := Nat.div_lt_of_lt_mul hlt
  have habove : q ≤ height / blocksPerPart := by
    rw [Nat.le_div_iff_mul_le hpos, Nat.mul_comm]
    exact hle
  omega

/-- Elsewhere it starts in the part of the height before. -/
theorem div_pred_of_not_dvd (hpos : 0 < a) (hdvd : ¬blocksPerPart ∣ a) :
    (a - 1) / blocksPerPart = a / blocksPerPart := by
  have hsucc := @Nat.succ_div (a - 1) blocksPerPart
  rw [show a - 1 + 1 = a by omega, if_neg hdvd] at hsucc
  exact hsucc.symm

/-- The rows of two heights differ. -/
theorem height_eq_of_blockRow {S S' : Table} {start' count count' : Nat}
    {e e' : Nat × FullBlock × List SpendRow} (hchain : LinkedChain D chain)
    (he : e ∈ filledRange enrich D chain start S count)
    (he' : e' ∈ filledRange enrich D chain start' S' count')
    (heq : e.2.1.blockRow = e'.2.1.blockRow) : e.1 = e'.1 := by
  have hheight := congrArg BlockRow.height heq
  rw [filledRange_blockRow he, filledRange_blockRow he'] at hheight
  obtain ⟨-, -, block, hblock, -⟩ := filledRange_heights he
  obtain ⟨-, -, block', hblock', -⟩ := filledRange_heights he'
  have hlt := chainBlock_lt hblock
  have hlt' := chainBlock_lt hblock'
  have hbound := hchain.length_lt
  rw [eq_ofNat_iff (by omega), toNat_ofNat_height (by omega)] at hheight
  exact hheight

section TwoRuns

variable {first second whole : ParseDirs} (hchain : LinkedChain D chain)
  (hshared : SharedHashes D chain chain) (hfiles : HoldBlocks blockBytes files.flatten chain)
  (hfirst : ParsesTo W D blockBytes files chain blocksPerPart 0 a .fresh first)
  (hsecond : ParsesTo W D blockBytes files chain blocksPerPart a b first second)
  (hwhole : ParsesTo W D blockBytes files chain blocksPerPart 0 b .fresh whole)

include hchain hshared hfiles hfirst hsecond hwhole

/-- At a part boundary the two runs leave what one run leaves, part by part. -/
theorem sameOutput_of_dvd (hdvd : blocksPerPart ∣ a) : SameOutput second whole := by
  obtain ⟨-, -, hutxo₁, hout₁⟩ := hfirst.fresh hchain hshared hfiles
  obtain ⟨hab, hb, hutxo₂, hout₂⟩ := hsecond.later hchain hshared hfiles hutxo₁
  obtain ⟨-, -, hutxo, hout⟩ := hwhole.fresh hchain hshared hfiles
  have hsplit := @chainRows_append D chain a b hab.le hb
  have hsame : second.out = whole.out := by
    funext p
    rw [hout₂, hout, hsplit, partRows_append]
    by_cases hp : p ∈ partsOf blocksPerPart a b
    · rw [if_pos hp, partRows_of_dvd hdvd hp, Rows.empty_append]
    · have hempty : partRows blocksPerPart p (laterRows D chain a b) = .empty := by
        refine partRows_eq_empty fun e he heq => hp ?_
        obtain ⟨hle, hlt⟩ := laterRows_height hab.le he
        exact mem_partsOf.mpr ⟨e.1, hle, hlt, heq⟩
      rw [if_neg hp, hout₁, hempty, Rows.append_empty]
  refine ⟨by rw [hutxo₂, hutxo], b, ?_, ?_⟩
  · intro p hp
    rw [hsame, and_self, hout]
    refine partRows_eq_empty fun e he heq => ?_
    have hlt := chainRows_height he
    have := Nat.div_le_self e.1 blocksPerPart
    omega
  · rw [hsame]
    exact .refl _

/-- Elsewhere the row of height `a - 1` is in the part that the second run empties. -/
theorem not_sameOutput_of_not_dvd (hdvd : ¬blocksPerPart ∣ a) : ¬SameOutput second whole := by
  obtain ⟨-, hblocks, hutxo₁, hout₁⟩ := hfirst.fresh hchain hshared hfiles
  obtain ⟨hab, hb, -, hout₂⟩ := hsecond.later hchain hshared hfiles hutxo₁
  obtain ⟨-, -, -, hout⟩ := hwhole.fresh hchain hshared hfiles
  have hpos : 0 < a := Nat.pos_of_ne_zero fun hzero => hdvd (hzero ▸ Nat.dvd_zero _)
  obtain ⟨block, hblock⟩ := hblocks (a - 1) (by omega)
  obtain ⟨lost, hlost, hlostHeight⟩ : ∃ e ∈ chainRows D chain b, e.1 = a - 1 :=
    ⟨_, mem_filledRange (Nat.zero_le _) (by omega) hblock, rfl⟩
  have hrow : lost.2.1.blockRow ∈ (whole.out (a / blocksPerPart)).blocks := by
    rw [hout]
    exact mem_partRows.mpr ⟨lost, hlost, hlostHeight ▸ div_pred_of_not_dvd hpos hdvd, rfl⟩
  intro hsame
  refine OutDir.not_sameRows hrow (fun q hmem => ?_) hsame.rows
  rw [hout₂] at hmem
  by_cases hq : q ∈ partsOf blocksPerPart a b
  · -- A part of the second run has its rows only, and they are of later heights.
    rw [if_pos hq] at hmem
    obtain ⟨e, he, -, heq⟩ := mem_partRows.mp hmem
    have hheight := height_eq_of_blockRow hchain hlost he heq
    have := (laterRows_height hab.le he).1
    omega
  · rw [if_neg hq, hout₁] at hmem
    obtain ⟨e, he, hpart, heq⟩ := mem_partRows.mp hmem
    have hheight := height_eq_of_blockRow hchain hlost he heq
    rw [← hheight, hlostHeight, div_pred_of_not_dvd hpos hdvd] at hpart
    exact hq (mem_partsOf.mpr ⟨a, le_rfl, hab, hpart⟩)

/-- Two runs leave what one run leaves exactly when the second starts at a part
boundary. -/
theorem resumed_sameOutput_iff (_hparts : 1 ≤ blocksPerPart) :
    SameOutput second whole ↔ blocksPerPart ∣ a := by
  constructor
  · intro hsame
    by_contra hdvd
    exact not_sameOutput_of_not_dvd hchain hshared hfiles hfirst hsecond hwhole hdvd hsame
  · exact sameOutput_of_dvd hchain hshared hfiles hfirst hsecond hwhole

end TwoRuns

end Resume

/-! ## Concrete runs -/

theorem sampleParsed_parsesTo {start endHeight : Nat} {dirs : ParseDirs}
    (hrange : ParsesRange (fileEnv treeDigests oldChain) (sampleParse start endHeight)
      (fileOf oldChain) start endHeight)
    (hok : (runParseIn (fileEnv treeDigests oldChain) (sampleParse start endHeight)
      ((fileOf oldChain).map BlkFile.ofRecords) dirs).1 = .ok ()) :
    ParsesTo Nat treeDigests (fileEnv treeDigests oldChain).blockBytes (fileOf oldChain) oldChain 2
      start endHeight dirs (sampleParsed start endHeight dirs) :=
  ⟨fileEnv treeDigests oldChain, sampleParse start endHeight, rfl, rfl, rfl,
    keepsAll_of_none _ _ rfl, hrange, Prod.ext hok rfl⟩

/-- The second run starts in the second part. -/
theorem resumed_sameOutput_iff_sample :
    SameOutput (sampleParsed 2 3 (sampleParsed 0 2 .fresh)) (sampleParsed 0 3 .fresh) :=
  (resumed_sameOutput_iff oldChain_valid.linkedChain (by decide +kernel) holdBlocks_oldChain
    (sampleParsed_parsesTo (by decide +kernel) (by decide +kernel))
    (sampleParsed_parsesTo (by decide +kernel) (by decide +kernel))
    (sampleParsed_parsesTo (by decide +kernel) (by decide +kernel)) (by decide)).mpr (by decide)

/-- With two blocks a part, a run over the first block and one over the second and third:
the second run empties the part of the first block. -/
theorem resumed_at_odd_height_loses_rows :
    ∃ first second whole : ParseDirs,
      ParsesTo Nat treeDigests (fileEnv treeDigests oldChain).blockBytes (fileOf oldChain)
        oldChain 2 0 1 .fresh first ∧
      ParsesTo Nat treeDigests (fileEnv treeDigests oldChain).blockBytes (fileOf oldChain)
        oldChain 2 1 3 first second ∧
      ParsesTo Nat treeDigests (fileEnv treeDigests oldChain).blockBytes (fileOf oldChain)
        oldChain 2 0 3 .fresh whole ∧
      ¬SameOutput second whole := by
  have hfirst := @sampleParsed_parsesTo 0 1 .fresh (by decide +kernel) (by decide +kernel)
  have hsecond := @sampleParsed_parsesTo 1 3 (sampleParsed 0 1 .fresh) (by decide +kernel)
    (by decide +kernel)
  have hwhole := @sampleParsed_parsesTo 0 3 .fresh (by decide +kernel) (by decide +kernel)
  exact ⟨_, _, _, hfirst, hsecond, hwhole,
    not_sameOutput_of_not_dvd oldChain_valid.linkedChain (by decide +kernel) holdBlocks_oldChain
      hfirst hsecond hwhole (by decide)⟩

end Bidx
