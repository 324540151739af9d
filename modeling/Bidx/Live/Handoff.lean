import Bidx.Live.EntryHeights
import Bidx.Live.Reorg
import Bidx.Pipeline.BulkReplay

/-!
# From the bulk parse to the live tracker

`bidx parse` fills the UTXO directory, `bidx live` goes on from there.  The tracker
goes by the tip record, and the bulk parse writes none: the tracker then takes the
node's tip as its own without applying a block.  The store ends on the node's chain
exactly when the bulk parse had already reached the node's tip.
-/

namespace Bidx

open KeyValue Tracker

/-- A node that serves a chain tells its blocks apart by their hashes. -/
theorem Serves.sharedHashes {D : Digests} {chain : List RawBlock} {view : NodeView}
    (h : Serves D chain view) : SharedHashes D chain chain := by
  intro a ha b hb heq
  have hraw := h.blockRaw a ha
  rw [heq, h.blockRaw b hb] at hraw
  exact (Except.ok.inj hraw).symm

theorem SharedHashes.take {D : Digests} {chain : List RawBlock} (h : SharedHashes D chain chain)
    (count : Nat) : SharedHashes D (chain.take count) (chain.take count) :=
  fun a ha b hb => h a (List.mem_of_mem_take ha) b (List.mem_of_mem_take hb)

section Handoff

variable {D : Digests} {C : List RawBlock} {env : TrackerEnv} {w w' : World}

/-- A store without a tip record takes the node's tip for its own; its table stays. -/
theorem wp_catchUp_without_tip (hne : C ≠ []) (hnode : ∀ i, Serves D C (env.node i))
    (htip : w.store.tip = none) :
    Fallible.wp (catchUp env)
      (fun _ w' => w'.store.db.utxo = w.store.db.utxo ∧
        ∃ tip, w'.store.tip = some tip ∧ TipOn D C (C.length - 1) tip)
      (fun _ _ => True) w := by
  have hlast : C[C.length - 1]? = some _ :=
    List.getElem?_eq_getElem (Nat.sub_lt (List.length_pos_of_ne_nil hne) Nat.one_pos)
  unfold catchUp
  rw [Fallible.wp_bind]
  change Fallible.wp (orRpc (env.node w.calls).blockCount >>= _) _ _
    { w with calls := w.calls + 1 }
  rw [(hnode _).blockCount, Fallible.wp_bind, wp_orRpc_ok, Fallible.wp_bind, Fallible.wp_read, htip]
  unfold startAtNodeTip
  rw [Fallible.wp_bind]
  change Fallible.wp (orRpc ((env.node (w.calls + 1)).blockHash _) >>= _) _ _ _
  rw [(hnode _).blockHash _ _ hlast, Fallible.wp_bind, wp_orRpc_ok]
  refine Fallible.wp_seq (Fallible.wp_mono (durable_outcome rfl) (fun _ _ h => h)
    fun _ _ _ => trivial) ?_
  rintro _ w₁ ⟨-, -, rfl⟩
  exact ⟨rfl, _, UtxoStore.tip_setTip _ _, _, hlast, rfl⟩

variable {W : Type} [AddMonoid W] [LinearOrder W] {bulk : ParseEnv W} {cfg : ParseConfig}
  {files : List (List BlkRecord)} {m e : Nat} {out : OutDir}

/-- A bulk parse of the first `e` blocks into a fresh UTXO directory. -/
theorem runParseIn_fresh (hC : ValidChain bulk.digests C)
    (hshared : SharedHashes bulk.digests C C)
    (hfiles : HoldBlocks bulk.blockBytes files.flatten (C.take m))
    (horphans : cfg.orphanBlocks = none) (hrange : ParsesRange bulk cfg files 0 e)
    (hparse : (runParseIn bulk cfg (files.map BlkFile.ofRecords) ⟨.fresh, out⟩).1 = .ok ()) :
    0 < e ∧ e ≤ C.length ∧
      (runParseIn bulk cfg (files.map BlkFile.ofRecords) ⟨.fresh, out⟩).2.utxo =
        ⟨replay bulk.digests (C.take e), fun _ => none, none⟩ := by
  have hrun := runParse_parsedRange (hC.take m).linkedChain (hshared.take m) hfiles
    (keepsAll_of_none _ _ horphans) hrange (UtxoStore.bulk_openBulk .fresh) hparse
  have hle := hrun.end_le
  rw [List.length_take] at hle
  refine ⟨hrun.start_lt, by omega, ?_⟩
  show (runParse bulk cfg (files.map BlkFile.ofRecords) (.openBulk .fresh)).store.db = _
  rw [hrun.db_eq rfl, List.take_take, Nat.min_eq_left (by omega)]
  rfl

/-- What is left of a chain for the tracker is applied only if nothing is left. -/
theorem catchUp_after_parse_iff (hC : ValidChain bulk.digests C)
    (hfiles : HoldBlocks bulk.blockBytes files.flatten (C.take m))
    (horphans : cfg.orphanBlocks = none) (hrange : ParsesRange bulk cfg files 0 e)
    (hparse : (runParseIn bulk cfg (files.map BlkFile.ofRecords) ⟨.fresh, out⟩).1 = .ok ())
    (hnode : ∀ i, Serves bulk.digests C (env.node i))
    (hcatchUp : (catchUp env (.start (.openLive
      (runParseIn bulk cfg (files.map BlkFile.ofRecords) ⟨.fresh, out⟩).2.utxo))).1 = .ok ()) :
    EndsOn bulk.digests C (catchUp env (.start (.openLive
      (runParseIn bulk cfg (files.map BlkFile.ofRecords) ⟨.fresh, out⟩).2.utxo))) ↔
        e = C.length := by
  obtain ⟨hpos, hle, hdb⟩ := runParseIn_fresh hC (hnode 0).sharedHashes hfiles horphans hrange
    hparse
  have hne : C ≠ [] := List.ne_nil_of_length_pos (by omega)
  have htip : (World.start (.openLive
      (runParseIn bulk cfg (files.map BlkFile.ofRecords) ⟨.fresh, out⟩).2.utxo)).store.tip =
        none := by
    rw [hdb]
    rfl
  have hrun := wp_catchUp_without_tip hne hnode htip
  generalize hworld : catchUp env _ = run at hcatchUp
  obtain ⟨result, w'⟩ := run
  obtain rfl : result = .ok () := hcatchUp
  obtain ⟨hutxo, hlast⟩ := Fallible.of_wp_ok hrun hworld
  rw [hdb] at hutxo
  rw [← hC.replay_take_eq_iff hle]
  constructor
  · intro hends
    exact hutxo.symm.trans hends.utxo
  · intro heq
    exact ⟨rfl, hutxo.trans heq, hlast⟩

end Handoff

/-! ## Concrete runs -/

/-- A bulk parse of all three blocks, and a tracker that finds nothing to do. -/
theorem catchUp_after_parse_iff_sample :
    EndsOn treeDigests oldChain
      (catchUp (quietEnv treeDigests oldChain)
        (.start (.openLive (sampleParsed 0 3 .fresh).utxo))) :=
  (@catchUp_after_parse_iff oldChain (quietEnv treeDigests oldChain) Nat _ _
    (fileEnv treeDigests oldChain) (sampleParse 0 3) (fileOf oldChain) 3 3 .fresh oldChain_valid
    holdBlocks_oldChain rfl (by decide +kernel) (by decide +kernel)
    (undisturbed_quietEnv (by decide) oldChain_hashes_nodup).serves (by decide +kernel)).mpr rfl

/-- A bulk parse of the first two blocks: the tracker returns with the tip of the third,
whose output is not in the table. -/
theorem catchUp_after_parse_skips_block :
    (ValidChain treeDigests oldChain ∧
      HoldBlocks (fileEnv treeDigests oldChain).blockBytes (fileOf oldChain).flatten
        (oldChain.take 3) ∧
      ParsesRange (fileEnv treeDigests oldChain) (sampleParse 0 2) (fileOf oldChain) 0 2 ∧
      (runParseIn (fileEnv treeDigests oldChain) (sampleParse 0 2)
        ((fileOf oldChain).map BlkFile.ofRecords) .fresh).1 = .ok () ∧
      Undisturbed treeDigests oldChain (quietEnv treeDigests oldChain)) ∧
    (catchUp (quietEnv treeDigests oldChain)
      (.start (.openLive (sampleParsed 0 2 .fresh).utxo))).1 = .ok () ∧
    ¬EndsOn treeDigests oldChain
      (catchUp (quietEnv treeDigests oldChain)
        (.start (.openLive (sampleParsed 0 2 .fresh).utxo))) := by
  refine ⟨⟨oldChain_valid, holdBlocks_oldChain, by decide +kernel, by decide +kernel,
    undisturbed_quietEnv (by decide) oldChain_hashes_nodup⟩, by decide +kernel, ?_⟩
  intro hends
  have hskipped : (catchUp (quietEnv treeDigests oldChain)
      (.start (.openLive (sampleParsed 0 2 .fresh).utxo))).2.store.db.utxo
        (makeKey (wordBytes 32 sampleOld2.txid) 0) ≠
      replay treeDigests oldChain (makeKey (wordBytes 32 sampleOld2.txid) 0) := by
    decide +kernel
  exact hskipped (congrFun hends.utxo _)

end Bidx
