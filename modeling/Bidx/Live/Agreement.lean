import Bidx.Live.Reorg
import Bidx.Pipeline.BulkReplay

/-!
# Bulk and live ingest agree

Both commands parse a block, apply it and fill in its fees.  They differ in the store
(with or without undo records), in what decides the order of the blocks, and in which
transactions count for the block's total fee: the bulk consumer leaves out those with a
coinbase input, the tracker the first one.  On a chain whose blocks start with a
coinbase transaction they hand on the same rows, height by height, and leave the same
table.
-/

namespace Bidx

open KeyValue Tracker

/-! ## The total fee -/

/-- Folding over two selections of a list that differ in neutral elements only. -/
theorem foldl_filter_eq {α β : Type} {f : β → α → β} {p q : α → Bool} {l : List α}
    (h : ∀ a ∈ l, p a ≠ q a → ∀ b, f b a = b) (b : β) :
    (l.filter p).foldl f b = (l.filter q).foldl f b := by
  induction l generalizing b with
  | nil => rfl
  | cons a l ih =>
      have hrest := fun b => ih (fun a' ha' => h a' (List.mem_cons_of_mem _ ha')) b
      by_cases hpq : p a = q a
      · cases hq : q a with
        | true => simp only [List.filter_cons, hpq, hq, if_true, List.foldl_cons, hrest]
        | false => simp only [List.filter_cons, hpq, hq, Bool.false_eq_true, if_false, hrest]
      · have hneutral := h a List.mem_cons_self hpq
        cases hp : p a <;> cases hq : q a <;>
          simp only [List.filter_cons, hp, hq, Bool.false_eq_true, if_true, if_false,
            List.foldl_cons, hneutral, hrest]

theorem saturatingAdd_zero (a : UInt64) : saturatingAdd a 0 = a := by
  have hlt := a.toNat_lt
  rw [saturatingAdd, UInt64.toNat_zero, Nat.add_zero, Nat.min_eq_left (by omega),
    UInt64.ofNat_toNat]

section Fees

variable {D : Digests} {raw : RawBlock} {height : Nat} {block : FullBlock} {S : Table}

/-- A transaction with a coinbase input has no other input, so nothing is credited to
it, and its fee is zero. -/
theorem fee_of_coinbaseTx (hparse : parseAt D raw height = .ok block)
    (hnodup : (spentKeys block.inputs).Nodup) {i : Nat} (hcoinbase : coinbaseTx block i = true) :
    (spendResult (UInt32.ofNat height) block S).fees.getD i 0 = 0 := by
  obtain ⟨parsed, hfrom⟩ := exists_parsedFrom hparse
  obtain ⟨cb, hcb, hflag⟩ := List.any_eq_true.mp hcoinbase
  rw [Bool.and_eq_true, decide_eq_true_eq] at hflag
  have hnone : (credits (resolvedOver (UInt32.ofNat height) block S) block.inputs).filter
      (fun e => e.1 = i) = [] := by
    refine List.filter_eq_nil_iff.mpr fun e he => ?_
    obtain ⟨inp, hinp, hsome⟩ := List.mem_filterMap.mp he
    obtain ⟨hmem, hspend⟩ := List.mem_filter.mp hinp
    obtain ⟨v, -, rfl⟩ := Option.map_eq_some_iff.mp hsome
    rw [decide_eq_true_eq]
    intro heq
    -- It would be the coinbase input itself.
    have hsame : inp = cb := hfrom.coinbase_alone hcb hmem hflag.2
      (UInt32.toNat_inj.mp (heq.trans hflag.1.symm))
    rw [hsame, hflag.2] at hspend
    contradiction
  have hfees := (spendResult_rows (UInt32.ofNat height) S hfrom.wellShaped hnodup).2
  have hcharged : ∀ l : List UInt64, l.foldl saturatingSub 0 = 0 := by
    intro l
    apply UInt64.toNat_inj.mp
    rw [toNat_foldl_saturatingSub, UInt64.toNat_zero, Nat.zero_sub]
  rw [hfees, List.getD_eq_getElem?_getD, getElem?_booked, getElem?_booked, hnone,
    List.getElem?_replicate]
  split
  · exact hcharged _
  · rfl

/-- Both ways of filling in the fees agree on a block that starts with a coinbase
transaction. -/
theorem enrich_eq_fillFees (hparse : parseAt D raw height = .ok block)
    (hnodup : (spentKeys block.inputs).Nodup) (hfirst : coinbaseTx block 0 = true) :
    enrich block (spendResult (UInt32.ofNat height) block S).fees =
      fillFees block (spendResult (UInt32.ofNat height) block S).fees := by
  have htotal := foldl_filter_eq
    (f := fun total i => saturatingAdd total
      ((spendResult (UInt32.ofNat height) block S).fees.getD i 0))
    (p := fun i => !coinbaseTx block i) (q := fun i => decide (i ≠ 0))
    (l := List.range block.txs.length) ?_ 0
  · rw [enrich, fillFees, htotal]
  · intro i _ hne total
    by_cases hi : i = 0
    · subst hi
      simp [hfirst] at hne
    · have hcoinbase : coinbaseTx block i = true := by simpa [hi] using hne
      show saturatingAdd total _ = total
      rw [fee_of_coinbaseTx hparse hnodup hcoinbase, saturatingAdd_zero]

/-- The block starts with a coinbase transaction. -/
def StartsWithCoinbase (D : Digests) (chain : List RawBlock) : Prop :=
  ∀ height block, chainBlock D chain height = some block → coinbaseTx block 0 = true

theorem filledRange_enrich_eq {chain : List RawBlock} (hvalid : ValidChain D chain)
    (hcoinbase : StartsWithCoinbase D chain) (start : Nat) (S : Table) (count : Nat) :
    filledRange enrich D chain start S count = filledRange fillFees D chain start S count := by
  refine List.filterMap_congr fun i _ => ?_
  cases hblock : chainBlock D chain (start + i) with
  | none => rfl
  | some block =>
      obtain ⟨raw, hraw, hparse⟩ := chainBlock_eq_some.mp hblock
      obtain ⟨block', hparse', hover⟩ := hvalid.valid _ _ hraw
      obtain rfl := Except.ok.inj (hparse.symm.trans hparse')
      rw [Option.map_some, Option.map_some, filled, filled,
        enrich_eq_fillFees hparse hover.spent_nodup (hcoinbase _ _ hblock)]

end Fees

/-! ## What the tracker hands on -/

/-- The blocks and spend rows of the `Applied` events, with their heights. -/
def appliedRows (events : List (TrackerEvent × Option FullBlock)) :
    List (UInt32 × FullBlock × List SpendRow) :=
  events.filterMap fun e =>
    match e with
    | (.applied height _ spends, some block) => some (height, block, spends)
    | _ => none

section Forward

variable {D : Digests} {B : List RawBlock} {env : TrackerEnv} {w : World} {tip : TipState}
  {height : Nat}

theorem appliedRows_append (events events' : List (TrackerEvent × Option FullBlock)) :
    appliedRows (events ++ events') = appliedRows events ++ appliedRows events' :=
  List.filterMap_append

/-- A round of the forward loop with nothing in its way. -/
theorem Undisturbed.forwardRound_emits (h : Undisturbed D B env) (hlive : w.store.Live)
    {raw : RawBlock} {block : FullBlock} (hraw : B[height + 1]? = some raw)
    (hparse : parseAt D raw (height + 1) = .ok block) (htip : tip.height = UInt32.ofNat height) :
    Fallible.wp (forwardRound env tip)
      (fun tip' w' => tip' = tipOf D (height + 1) raw ∧
        w'.store = w.store.follow D (height + 1) raw ∧
        w'.events = w.events ++ [appliedEvent D (height + 1) raw block w.store.db.utxo])
      (fun _ _ => False) w := by
  refine Fallible.wp_mono
    (forwardRound_outcome h.digests h.servesOrFails hlive hraw hparse htip) ?_ ?_
  · rintro tip' w' ⟨htip', hstore, -, hevents⟩
    exact ⟨htip', hstore, hevents⟩
  · rintro _ w' (⟨-, ⟨i, hi⟩ | hfault⟩ | ⟨-, hfault⟩)
    · exact hi (h.serves i)
    · exact hfault (h.writes _)
    · exact hfault (h.writes _)

/-- The forward loop hands on the rows of the blocks it applies. -/
theorem Undisturbed.forward_emits (h : Undisturbed D B env) (hvalid : ValidChain D B)
    (hlive : w.store.Live) (htip : TipOn D B height tip) {rounds : Nat}
    (hlen : height + rounds + 1 = B.length) :
    Fallible.wp (forward env rounds tip)
      (fun _ w' => appliedRows w'.events = appliedRows w.events ++
        (filledRange fillFees D B (height + 1) w.store.db.utxo rounds).map
          fun e => (UInt32.ofNat e.1, e.2))
      (fun _ _ => False) w := by
  -- From the first block on: the rest is followed over the table it leaves.
  induction rounds generalizing height tip w with
  | zero => simp [forward, filledRange]
  | succ rounds ih =>
      have hraw : B[height + 1]? = some _ := List.getElem?_eq_getElem (by omega)
      obtain ⟨block, hparse, -⟩ := hvalid.valid _ _ hraw
      have hblock := chainBlock_eq_some.mpr ⟨_, hraw, hparse⟩
      obtain ⟨raw₀, -, rfl⟩ := htip
      rw [forward]
      refine Fallible.wp_seq (h.forwardRound_emits hlive hraw hparse rfl) ?_
      rintro tip₁ w₁ ⟨rfl, hstore₁, hevents₁⟩
      have hlive₁ : w₁.store.Live := hstore₁ ▸ hlive.follow _ _
      refine Fallible.wp_mono (ih hlive₁ ⟨_, hraw, rfl⟩ (by omega)) ?_ fun _ _ hfalse => hfalse
      intro _ w' hrows
      have hutxo : w₁.store.db.utxo =
          tableAfter (UInt32.ofNat (height + 1)) block w.store.db.utxo := by
        rw [hstore₁, UtxoStore.follow_utxo, tableStep_of_parse hparse]
      rw [hrows, hevents₁, hutxo, filledRange_cons fillFees hblock, appliedRows_append,
        List.append_assoc]
      rfl

/-- A whole run from a store whose tip is on `B`. -/
theorem Undisturbed.catchUp_emits (h : Undisturbed D B env) (hvalid : ValidChain D B)
    (hlive : w.store.Live) (hs : w.store.tip = some tip) (htip : TipOn D B height tip) :
    Fallible.wp (catchUp env)
      (fun _ w' => appliedRows w'.events = appliedRows w.events ++
        (filledRange fillFees D B (height + 1) w.store.db.utxo (B.length - (height + 1))).map
          fun e => (UInt32.ofNat e.1, e.2))
      (fun _ _ => False) w := by
  obtain ⟨hlt, hrounds⟩ := htip.rounds hvalid.length_lt
  rw [wp_catchUp_of_tip (h.serves _).blockCount hs]
  unfold reconcile applyForward
  rw [Fallible.wp_bind, wp_walkBack_of_hasTip (by omega) (.of_serves hvalid (h.serves _) htip),
    hrounds]
  refine Fallible.wp_seq
    (h.forward_emits (w := World.asked { w with calls := w.calls + 1 } tip.height) hvalid hlive
      htip (by omega)) ?_
  intro _ w' hrows
  show appliedRows (w'.events ++ [(.caughtUp _, none)]) = _
  rw [appliedRows_append, hrows]
  exact List.append_nil _

end Forward

/-! ## What the consumer pushes -/

/-- The parsed blocks of a chain from `start` on, as messages. -/
def chainItems (D : Digests) (chain : List RawBlock) (start : Nat) : List WorkItem :=
  (List.range' start (chain.length - start)).filterMap fun height =>
    (chainBlock D chain height).map (.block height)

section Bulk

variable {D : Digests} {C : List RawBlock} {start : Nat} {items : List WorkItem}

theorem exists_of_mem_items (hitems : items.Perm (chainItems D C start)) :
    ∀ item ∈ items, ∃ height block, item = .block height block ∧
      chainBlock D C height = some block := by
  intro item hmem
  obtain ⟨height, -, hsome⟩ := List.mem_filterMap.mp (hitems.mem_iff.mp hmem)
  obtain ⟨block, hblock, rfl⟩ := Option.map_eq_some_iff.mp hsome
  exact ⟨height, block, rfl, hblock⟩

/-- Every height from `start` on arrives once. -/
theorem arrivals_of_perm (hC : ValidChain D C) (hlt : start < C.length)
    (hitems : items.Perm (chainItems D C start)) : Arrivals start C.length items := by
  refine ⟨hlt, (hitems.map WorkItem.height).trans (List.Perm.of_eq ?_)⟩
  rw [chainItems, List.map_filterMap]
  have hall : ∀ height ∈ List.range' start (C.length - start),
      ((chainBlock D C height).map (WorkItem.block height)).map WorkItem.height =
        some height := by
    intro height hmem
    have hheight : height < C.length := by
      rw [List.mem_range'_1] at hmem
      omega
    obtain ⟨block, hblock⟩ := hC.exists_chainBlock hheight
    rw [hblock]
    rfl
  rw [List.filterMap_congr hall, List.filterMap_some]

/-- The consumer over all blocks from `start` on, in any order. -/
theorem consumeOrdered_emits {cfg : ConsumeConfig} {store : UtxoStore} (hC : ValidChain D C)
    (hle : start ≤ C.length) (hend : cfg.endHeight = C.length) (hfaults : cfg.faults = .none)
    (hbulk : store.Bulk) (hutxo : store.db.utxo = replay D (C.take start))
    (hitems : items.Perm (chainItems D C start)) :
    ∃ c, consumeOrdered cfg start store items = (c, .ok ()) ∧
      pushes c.sink = (filledRange enrich D C start store.db.utxo (C.length - start)).map
        (fun e => (e.1 / cfg.blocksPerPart, e.2)) ∧
      c.store.db.utxo = replay D C := by
  rcases Nat.lt_or_eq_of_le hle with hlt | rfl
  · obtain ⟨c, hc, hfinished⟩ := consumeOrdered_returns hbulk (fun _ _ => chainBlock_shape) hfaults
      (hend ▸ arrivals_of_perm hC hlt hitems) (exists_of_mem_items hitems)
    refine ⟨c, hc, ?_, ?_⟩
    · rw [hfinished.sink, hend, pushes_append, Output.pushes_upTo]
      simp [pushes, Output.initial]
    · have hreplay := @replayRange_replay C start (C.length - start) D (by omega)
      rw [show start + (C.length - start) = C.length by omega, List.take_length] at hreplay
      rw [hfinished.store, hend, Output.store_upTo, ← hreplay, ← hutxo]
      rfl
  · -- Nothing is left to apply.
    have hnil : items = [] := by
      have hempty := hitems.length_eq
      rw [chainItems, Nat.sub_self] at hempty
      exact List.length_eq_zero_iff.mp hempty
    subst hnil
    rw [List.take_length] at hutxo
    simp only [consumeOrdered, consumeLoop, finishSink, hfaults, ConsumeFaults.none,
      Bool.false_eq_true, if_false, initialConsumer, hend, Nat.lt_irrefl, Nat.sub_self]
    exact ⟨_, rfl, rfl, hutxo⟩

end Bulk

/-! ## Whole runs -/

/-- Both runs return, and hand on the same rows for the heights from `start` up to
`endHeight`, and leave the same table. -/
structure SameIngest (start endHeight : Nat) (bulk : Consumer × Except ConsumeStop Unit)
    (live : Except TrackerStop Unit × World) : Prop where
  consumed : bulk.2 = .ok ()
  caughtUp : live.1 = .ok ()
  heights : (appliedRows live.2.events).map Prod.fst =
    (List.range' start (endHeight - start)).map UInt32.ofNat
  rows : (pushes bulk.1.sink).map (fun e => (e.2.1.blockRow.height, e.2)) =
    appliedRows live.2.events
  utxo : bulk.1.store.db.utxo = live.2.store.db.utxo

/-- The consumer fed a chain's blocks in any order and the tracker following a node that
serves the chain, from the same table on. -/
theorem consumeOrdered_agrees_catchUp {D : Digests} {C : List RawBlock} {start : Nat}
    {cfg : ConsumeConfig} {bulk live : UtxoStore} {items : List WorkItem} {env : TrackerEnv}
    {tip : TipState} (hC : ValidChain D C) (hcoinbase : StartsWithCoinbase D C)
    (hstart : 1 ≤ start) (hle : start ≤ C.length) (_hparts : 1 ≤ cfg.blocksPerPart)
    (hend : cfg.endHeight = C.length) (hfaults : cfg.faults = .none) (hbulk : bulk.Bulk)
    (hbulkUtxo : bulk.db.utxo = replay D (C.take start))
    (hitems : items.Perm (chainItems D C start)) (henv : Undisturbed D C env)
    (hlive : live.Live) (hliveUtxo : live.db.utxo = replay D (C.take start))
    (hliveTip : live.tip = some tip) (htip : TipOn D C (start - 1) tip) :
    SameIngest start C.length (consumeOrdered cfg start bulk items)
      (catchUp env (.start live)) := by
  have hsucc : start - 1 + 1 = start := by omega
  obtain ⟨c, hc, hpushes, hcUtxo⟩ :=
    consumeOrdered_emits hC hle hend hfaults hbulk hbulkUtxo hitems
  obtain ⟨w, hw, hstore⟩ := henv.catchUp_onChain (w := .start live) hC hlive hliveTip htip
  have hemits := henv.catchUp_emits (w := .start live) hC hlive hliveTip htip
  rw [hsucc] at hstore hemits
  have hevents := Fallible.of_wp_ok hemits hw
  change appliedRows w.events = [] ++ (filledRange fillFees D C start live.db.utxo _).map _
    at hevents
  rw [List.nil_append, hliveUtxo] at hevents
  rw [hc, hw]
  refine ⟨rfl, rfl, ?_, ?_, ?_⟩
  · show (appliedRows w.events).map Prod.fst = _
    rw [hevents, List.map_map, ← filledRange_fst hC fillFees (replay D (C.take start)) (by omega),
      List.map_map]
    rfl
  · show (pushes c.sink).map _ = appliedRows w.events
    rw [hpushes, hevents, ← filledRange_enrich_eq hC hcoinbase, hbulkUtxo, List.map_map]
    refine List.map_congr_left fun e he => ?_
    show (e.2.1.blockRow.height, e.2) = (UInt32.ofNat e.1, e.2)
    rw [filledRange_blockRow he]
  · show c.store.db.utxo = w.store.db.utxo
    rw [hcUtxo, hstore]
    exact (followed_utxo_end hliveUtxo hle).symm

/-- The last two blocks of the old branch, the second one first, and a tracker that stands
at the genesis block. -/
theorem consumeOrdered_agrees_catchUp_sample :
    SameIngest 1 3
      (consumeOrdered (sampleConfig 3) 1
        (.openBulk (Db.fresh.withUtxo (replay treeDigests (oldChain.take 1))))
        (chainItems treeDigests oldChain 1).reverse)
      (catchUp (quietEnv treeDigests oldChain)
        (.start (chainStore treeDigests (oldChain.take 1)))) := by
  have hcoinbase : StartsWithCoinbase treeDigests oldChain := by
    intro height block hblock
    have hall : ∀ height < oldChain.length, ∀ block ∈ chainBlock treeDigests oldChain height,
        coinbaseTx block 0 = true := by decide +kernel
    exact hall height (chainBlock_lt hblock) block hblock
  have hutxo : ∀ S : Table, (UtxoStore.openBulk (Db.fresh.withUtxo S)).db.utxo = S := fun _ => rfl
  have hholds := holdsChain_chainStore (D := treeDigests) (A := oldChain.take 1)
    (by simp [oldChain]) (by decide)
  exact @consumeOrdered_agrees_catchUp treeDigests oldChain 1 (sampleConfig 3)
    (.openBulk (Db.fresh.withUtxo (replay treeDigests (oldChain.take 1))))
    (chainStore treeDigests (oldChain.take 1)) _ _ _ oldChain_valid hcoinbase (by decide)
    (by decide) (by decide) rfl rfl (UtxoStore.bulk_openBulk _) (hutxo _) (List.reverse_perm _)
    (undisturbed_quietEnv (by decide) oldChain_hashes_nodup) hholds.live hholds.utxo
    (UtxoStore.tip_setTip _ _) ⟨_, rfl, rfl⟩

end Bidx
