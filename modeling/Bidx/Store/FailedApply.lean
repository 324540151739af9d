import Bidx.Store.Accounting
import Bidx.Store.BlockResult
import Bidx.Store.CacheBudget

/-!
# A failed `apply_block`

A call changes the recent-UTXO cache in two places: the input loop removes what it hits,
and the surviving outputs are published before the batch is written.  A removal only
sends a later call to the database.  A publication outlives a failed write: the cache
then holds outputs that the database does not have, and later calls ask the cache first.
-/

namespace Bidx

open KeyValue

/-- Where a call fails: at one of its point lookups, or at its write. -/
inductive RocksFailure where
  | read (position : Nat)
  | write
deriving DecidableEq

def RocksFailure.faults : RocksFailure → RocksFaults
  | .read position => ⟨fun n => decide (n = position), false⟩
  | .write => ⟨fun _ => false, true⟩

/-- Every call of a run got through. -/
def AllOk (run : List (Except (Stop UtxoError) SpendResult × UtxoStore)) : Prop :=
  ∀ call ∈ run, ∃ res, call.1 = .ok res

/-- Later sequences of successful calls show the same from `s'` as from `s`. -/
def NoLastingEffect (s s' : UtxoStore) : Prop :=
  ∀ orders orders' calls, AllOk (applyCalls orders s calls) →
    observedRun (applyCalls orders' s' calls) = observedRun (applyCalls orders s calls)

/-! ## Coherent leftovers -/

theorem OpenedCached.twin {cacheBytes : Nat} {s : UtxoStore} (h : OpenedCached cacheBytes s) :
    CachedTwin s (.openBulk s.db) := by
  induction h with
  | opened db => exact cachedTwin_open db cacheBytes
  | applied _ hcall ih => exact (ih.applied hcall).1

/-- A store whose cache was replaced by another coherent one shows no difference. -/
theorem noLastingEffect_of_coherent {s : UtxoStore} {c : RecentUtxoCache}
    (twin : CachedTwin s (.openBulk s.db)) (hc : c.Coherent s.db) :
    NoLastingEffect s { s with recent := some c } := by
  intro orders orders' calls _
  have twin' : CachedTwin { s with recent := some c } (.openBulk s.db) :=
    ⟨rfl, twin.cachedBulk, rfl, rfl, c, rfl, hc⟩
  rw [observedRun_twin twin' orders' orders, observedRun_twin twin orders orders]

namespace RecentUtxoCache

/-- Removals leave only entries that were there. -/
theorem lookup_performAll_removes {c : RecentUtxoCache} {keys : List Key} {k : Key}
    {v : UtxoValue} (h : (c.performAll (keys.map .remove)).map.lookup k = some v) :
    c.map.lookup k = some v := by
  induction keys generalizing c with
  | nil => exact h
  | cons key keys ih =>
      have hrest : (c.perform (.remove key)).map.lookup k = some v := ih h
      cases hlookup : c.map.lookup key with
      | some w =>
          simp only [perform, remove, hlookup] at hrest
          exact (lookup_erase_some hrest).1
      | none =>
          simp only [perform, remove, hlookup] at hrest
          exact hrest

theorem Coherent.removes {c : RecentUtxoCache} {db : Db} (h : c.Coherent db) (keys : List Key) :
    (c.performAll (keys.map .remove)).Coherent db :=
  fun k v hk => h k v (lookup_performAll_removes hk)

theorem Idle.performAll_removes {budgetBytes : Nat} {c : RecentUtxoCache} (h : Idle budgetBytes c)
    (keys : List Key) : Idle budgetBytes (c.performAll (keys.map .remove)) := by
  induction keys generalizing c with
  | nil => exact h
  | cons key keys ih => exact ih (h.perform_remove key)

theorem Idle.coherent {budgetBytes : Nat} {c : RecentUtxoCache} (h : Idle budgetBytes c) (db : Db) :
    c.Coherent db := by
  intro k v hk
  rw [lookup_of_keys_nil h.keys] at hk
  contradiction

end RecentUtxoCache

/-! ## Where the call stopped -/

section Call

variable {db : Db} {undoEnabled : Bool} {faults : RocksFaults} {height : UInt32}
  {order : IterOrder Key UtxoValue} {s s' : UtxoStore} {txs : List TxRow}
  {inputs : List InputRow} {outputs : List OutputRow}

/-- A call that RocksDB failed stopped in its input loop or at its write. -/
theorem applyBlock_rocks
    (h : s.applyBlock order faults height txs inputs outputs = (.error (.error .rocks), s')) :
    (∃ aborted, resolveInputs s.db s.undoEnabled faults height inputs
        (initialLoop s.recent height txs outputs) = .error aborted ∧
      s' = { s with recent := aborted.recent }) ∨
    ∃ st, resolveInputs s.db s.undoEnabled faults height inputs
        (initialLoop s.recent height txs outputs) = .ok st ∧ faults.write = true ∧
      s' = { s with recent := st.recent.map (publish order st.pending) } := by
  have hrun := applyBlock_run order faults s height txs inputs outputs
  rw [h] at hrun
  cases hrun with
  | aborts hloop => exact .inl ⟨_, hloop, rfl⟩
  | writeFails hloop hfees hwrite => exact .inr ⟨_, hloop, hwrite, rfl⟩

theorem pending_resolveInput {st st' : InputLoop} {inp : InputRow}
    (h : resolveInput db undoEnabled faults height st inp = .ok st') (k : Key) :
    st'.pending.lookup k = if k ∈ spentKeys [inp] then none else st.pending.lookup k := by
  -- Where the pending map does not have the outpoint, it is left alone.
  have hsame : inp.isCoinbase = false → st.pending.lookup inp.key = none →
      st.pending.lookup k = if k ∈ spentKeys [inp] then none else st.pending.lookup k := by
    intro hcb hpending
    rw [spentKeys_cons_spend hcb, spentKeys_nil]
    simp only [List.mem_singleton]
    split
    · rename_i hk
      rw [hk, hpending]
    · rfl
  rcases resolveInput_eq_ok h with ⟨hcb, rfl⟩ | ⟨hcb, v, hpending, -, rfl⟩ |
    ⟨hcb, hpending, v, recent, -, -, rfl⟩ | ⟨hcb, hpending, v, recent, -, -, -, rfl⟩ |
    ⟨hcb, hpending, recent, -, -, rfl⟩
  · rw [spentKeys_cons_coinbase hcb, if_neg (by simp)]
  · rw [spentKeys_cons_spend hcb, spentKeys_nil]
    simp only [List.mem_singleton]
    by_cases hk : k = inp.key
    · rw [if_pos hk, hk, AList.lookup_erase]
    · rw [if_neg hk, AList.lookup_erase_ne hk]
  · exact hsame hcb hpending
  · exact hsame hcb hpending
  · exact hsame hcb hpending

/-- In any mode, what is pending after the loop is what no input named. -/
theorem pending_resolveInputs {st st' : InputLoop}
    (h : resolveInputs db undoEnabled faults height inputs st = .ok st') (k : Key) :
    st'.pending.lookup k = if k ∈ spentKeys inputs then none else st.pending.lookup k := by
  induction inputs generalizing st with
  | nil =>
      obtain rfl := Except.ok.inj h
      rw [spentKeys_nil, if_neg List.not_mem_nil]
  | cons inp inputs ih =>
      obtain ⟨st₁, hstep, hrest⟩ := resolveInputs_cons_eq_ok.mp h
      rw [ih hrest, pending_resolveInput hstep, spentKeys_cons inp inputs]
      by_cases hlater : k ∈ spentKeys inputs
      · rw [if_pos hlater, if_pos (List.mem_append_right _ hlater)]
      · rw [if_neg hlater]
        simp only [List.mem_append, hlater, or_false]

end Call

/-! ## Where a difference comes from -/

namespace RecentUtxoCache

variable {budgetBytes : Nat}

theorem order_evictLoop {map : UtxoMap} {order : List Key} {k : Key}
    (h : k ∈ (evictLoop budgetBytes map order).2) : k ∈ order := by
  induction order generalizing map with
  | nil => exact h
  | cons key order ih =>
      rw [evictLoop] at h
      split at h
      · exact List.mem_cons_of_mem _ (ih h)
      · exact h

/-- Nothing enters the queue but inserted keys. -/
theorem order_performAll_inserts {c : RecentUtxoCache} {l : List (Sigma fun _ : Key => UtxoValue)}
    {k : Key} (h : k ∈ (c.performAll (l.map fun e => .insert e.1 e.2)).order) :
    k ∈ c.order ∨ k ∈ l.map Sigma.fst := by
  induction l generalizing c with
  | nil => exact .inl h
  | cons e l ih =>
      rw [List.map_cons, List.mem_cons]
      rcases ih h with hold | hnew
      · have hinsert : k ∈ (c.insert e.1 e.2).order := hold
        unfold insert at hinsert
        split at hinsert
        · exact .inl hinsert
        · rcases List.mem_append.mp (order_evictLoop hinsert) with hq | hk
          · exact .inl hq
          · exact .inr (.inl (List.mem_singleton.mp hk))
      · exact .inr (.inr hnew)

/-- What stands last in the queue, and nowhere else, stays when there is room for one
entry. -/
theorem evictLoop_keeps_last {map : UtxoMap} {front : List Key} {k : Key} {v : UtxoValue}
    (hroom : cacheEntryCost ≤ budgetBytes) (hqueued : ∀ a ∈ map, a ∈ front ++ [k])
    (hlast : k ∉ front) (h : map.lookup k = some v) :
    (evictLoop budgetBytes map (front ++ [k])).1.lookup k = some v := by
  induction front generalizing map with
  | nil =>
      -- No other key is resident.
      have hone : map.keys.length ≤ 1 := by
        have hsub : map.keys ⊆ [k] := fun a ha => hqueued a ha
        exact (map.keys_nodup.subperm hsub).length_le
      have hfits : map.keys.length * cacheEntryCost ≤ budgetBytes :=
        (Nat.mul_le_mul_right _ hone).trans (by rwa [Nat.one_mul])
      rw [evictLoop_of_fits hfits]
      exact h
  | cons key front ih =>
      rw [List.mem_cons, not_or] at hlast
      rw [List.cons_append, evictLoop]
      split
      · refine ih (mem_erase_of_mem_cons hqueued) hlast.2 ?_
        rw [AList.lookup_erase_ne hlast.1]
        exact h
      · exact h

/-- A key inserted for the first time is resident afterwards. -/
theorem WithinBudget.lookup_insert_new {c : RecentUtxoCache} (h : WithinBudget budgetBytes c)
    (hroom : cacheEntryCost ≤ budgetBytes) {k : Key} (hnew : k ∉ c.order) (v : UtxoValue) :
    (c.insert k v).map.lookup k = some v := by
  have hnone : c.map.lookup k = none := AList.lookup_eq_none.mpr fun hk => hnew (h.queued k hk)
  simp only [insert, hnone, evictToBudget, h.budget]
  exact evictLoop_keeps_last hroom (mem_insert_queue h k v) hnew (AList.lookup_insert _)

/-- Publishing into a cache that holds nothing, the last outpoint stays. -/
theorem Idle.lookup_publish_last {c : RecentUtxoCache} (h : Idle budgetBytes c)
    (hroom : cacheEntryCost ≤ budgetBytes) {pending : UtxoMap} {k : Key} {v : UtxoValue}
    (hk : pending.lookup k = some v) :
    (publish (.endingAt k) pending c).map.lookup k = some v := by
  obtain ⟨front, hlist⟩ := IterOrder.list_endingAt hk
  have hnodup : (((IterOrder.endingAt k).list pending).map Sigma.fst).Nodup :=
    (((IterOrder.endingAt k).perm pending).map Sigma.fst).nodup_iff.mpr pending.keys_nodup
  rw [hlist] at hnodup
  have hbefore : WithinBudget budgetBytes c := by
    refine ⟨h.budget, ?_, ?_⟩
    · intro a ha
      rw [AList.mem_keys, h.keys] at ha
      exact absurd ha List.not_mem_nil
    · rw [h.keys]
      exact Nat.zero_le _
  rw [publish_performAll, hlist, List.map_append, performAll_append]
  refine (hbefore.performAll _).lookup_insert_new hroom ?_ v
  intro hmem
  rcases order_performAll_inserts hmem with hold | hfront
  · rw [h.order] at hold
    exact absurd hold List.not_mem_nil
  · rw [List.map_append, List.nodup_append] at hnodup
    exact hnodup.2.2 k hfront k List.mem_cons_self rfl

end RecentUtxoCache

/-! ## The failed call -/

/-- A call that spends one outpoint and creates none: the cache is asked first. -/
theorem applyBlock_probe (order : IterOrder Key UtxoValue) {s : UtxoStore} {c : RecentUtxoCache}
    (hs : s.recent = some c) (tx : TxRow) {inp : InputRow} (hcb : inp.isCoinbase = false)
    (hindex : inp.txIndex.toNat = 0) :
    ∃ res s', s.applyBlock order .none 0 [tx] [inp] [] = (.ok res, s') ∧
      res.spends = (((c.map.lookup inp.key).or (s.db.value inp.key)).map (spendRow 0 inp)).toList := by
  have hpending : (seedPending 0 []).lookup inp.key = none := AList.lookup_empty _
  have hlt : inp.txIndex.toNat < 1 := by omega
  cases hhit : c.map.lookup inp.key with
  | some v =>
      have hround : ∃ st, resolveInputs s.db s.undoEnabled .none 0 [inp]
          (initialLoop s.recent 0 [tx] []) = .ok st ∧ st.spends = [spendRow 0 inp v] := by
        simp only [resolveInputs, resolveInput, hcb, initialLoop, hpending, hs, removeRecent,
          RecentUtxoCache.remove, hhit, recordSpend]
        simp [hlt]
      obtain ⟨st, hloop, hspends⟩ := hround
      rw [UtxoStore.applyBlock, hloop]
      exact ⟨_, _, rfl, hspends⟩
  | none =>
      have hround : ∃ st, resolveInputs s.db s.undoEnabled .none 0 [inp]
          (initialLoop s.recent 0 [tx] []) = .ok st ∧
          st.spends = ((s.db.value inp.key).map (spendRow 0 inp)).toList := by
        simp only [resolveInputs, resolveInput, hcb, initialLoop, hpending, hs, removeRecent,
          RecentUtxoCache.remove, hhit, lookupDb, Db.value]
        cases hv : (s.db.utxo inp.key).bind UtxoValue.decode with
        | some v => simp [recordSpend, hlt, RocksFaults.none]
        | none => simp [RocksFaults.none]
      obtain ⟨st, hloop, hspends⟩ := hround
      rw [UtxoStore.applyBlock, hloop]
      exact ⟨_, _, rfl, hspends⟩

/-- Every output the block leaves unspent is in the database already, with its value. -/
def OutputsStored (db : Db) (height : UInt32) (inputs : List InputRow)
    (outputs : List OutputRow) : Prop :=
  ∀ k v, (seedPending height outputs).lookup k = some v → k ∉ spentKeys inputs →
    db.utxo k = some v.encode

/-- In every state a cached store reaches over this database, the block failing there has
no lasting effect. -/
def FailsWithoutEffect (cacheBytes : Nat) (db : Db) (failure : RocksFailure) (height : UInt32)
    (txs : List TxRow) (inputs : List InputRow) (outputs : List OutputRow) : Prop :=
  ∀ s s' order, OpenedCached cacheBytes s → s.db = db →
    s.applyBlock order failure.faults height txs inputs outputs = (.error (.error .rocks), s') →
    NoLastingEffect s s'

section Failed

variable {cacheBytes : Nat} {db : Db} {height : UInt32} {txs : List TxRow}
  {inputs : List InputRow} {outputs : List OutputRow} {order : IterOrder Key UtxoValue}
  {s s' : UtxoStore} {faults : RocksFaults}

/-- A call stopped in its loop leaves a coherent cache. -/
theorem noLastingEffect_of_aborted {aborted : Aborted} (hs : OpenedCached cacheBytes s)
    (hloop : resolveInputs s.db s.undoEnabled faults height inputs
      (initialLoop s.recent height txs outputs) = .error aborted) :
    NoLastingEffect s { s with recent := aborted.recent } := by
  obtain ⟨c, hc, hcoherent⟩ := hs.twin.cache
  obtain ⟨keys, hleft⟩ := @cacheLeft_resolveInputs s.db s.undoEnabled faults height inputs
    (initialLoop s.recent height txs outputs)
  rw [hloop] at hleft
  have hrecent : aborted.recent = s.recent.map fun c => c.performAll (keys.map .remove) := hleft
  rw [hrecent, hc, Option.map_some]
  exact noLastingEffect_of_coherent hs.twin (hcoherent.removes keys)

/-- A call stopped at its write does too, when the database has what it published. -/
theorem noLastingEffect_of_stored {st : InputLoop} (hs : OpenedCached cacheBytes s)
    (hloop : resolveInputs s.db s.undoEnabled faults height inputs
      (initialLoop s.recent height txs outputs) = .ok st)
    (hstored : OutputsStored s.db height inputs outputs) :
    NoLastingEffect s { s with recent := st.recent.map (publish order st.pending) } := by
  obtain ⟨c, hc, hcoherent⟩ := hs.twin.cache
  obtain ⟨keys, hleft⟩ := @cacheLeft_resolveInputs s.db s.undoEnabled faults height inputs
    (initialLoop s.recent height txs outputs)
  rw [hloop] at hleft
  have hrecent : st.recent = s.recent.map fun c => c.performAll (keys.map .remove) := hleft
  rw [hrecent, hc, Option.map_some, Option.map_some]
  refine noLastingEffect_of_coherent hs.twin ?_
  intro k v hk
  rcases RecentUtxoCache.lookup_publish hk with hpending | ⟨-, hold⟩
  · have hleft := pending_resolveInputs hloop k
    rw [hpending] at hleft
    split at hleft
    · contradiction
    · exact hstored k v hleft.symm (by assumption)
  · exact hcoherent.removes keys k v hold

theorem noLastingEffect_of_no_room (hs : OpenedCached cacheBytes s)
    (hroom : cacheBytes < cacheEntryCost)
    (h : s.applyBlock order faults height txs inputs outputs = (.error (.error .rocks), s')) :
    NoLastingEffect s s' := by
  obtain ⟨ops, hops⟩ := hs.performed
  obtain ⟨ops', hops'⟩ := recent_applyBlock order faults s height txs inputs outputs
  rw [h, hops, Option.map_some, ← RecentUtxoCache.performAll_append] at hops'
  have hcoherent := (RecentUtxoCache.idle_of_no_room hroom (ops ++ ops')).coherent s.db
  have hs' : s' = { s with recent := some ((RecentUtxoCache.new cacheBytes).performAll
      (ops ++ ops')) } := by
    rcases applyBlock_rocks h with ⟨aborted, -, rfl⟩ | ⟨st, -, -, rfl⟩
    · rw [← hops']
    · rw [← hops']
  rw [hs']
  exact noLastingEffect_of_coherent hs.twin hcoherent

/-- Over rows in range the write is reached when no read fails. -/
theorem applyBlock_write_failed (order : IterOrder Key UtxoValue) (s : UtxoStore)
    (height : UInt32) (hrange : RowsInRange txs inputs outputs) :
    ∃ st, resolveInputs s.db s.undoEnabled RocksFailure.write.faults height inputs
        (initialLoop s.recent height txs outputs) = .ok st ∧
      s.applyBlock order RocksFailure.write.faults height txs inputs outputs =
        (.error (.error .rocks),
          { s with recent := st.recent.map (publish order st.pending) }) := by
  have hinit := accounted_initial s.recent height txs outputs
  have hruns : (∃ st, resolveInputs s.db s.undoEnabled RocksFailure.write.faults height inputs
        (initialLoop s.recent height txs outputs) = .ok st) ∨
      ∃ recent, resolveInputs s.db s.undoEnabled RocksFailure.write.faults height inputs
          (initialLoop s.recent height txs outputs) = .error ⟨.error .rocks, recent⟩ ∧
        ∃ n, RocksFailure.write.faults.get n = true := hinit.resolveInputs_goes_on hrange.inputs
  rcases hruns with ⟨st, hloop⟩ | ⟨-, -, n, hn⟩
  · have hbooks := hinit.resolveInputs hloop
    refine ⟨st, hloop, ?_⟩
    rw [UtxoStore.applyBlock, hloop]
    simp only [hbooks.subtractOutputs hrange.outputs]
    rfl
  · exact absurd hn Bool.false_ne_true

end Failed

/-- One later call that gets through from both stores returns the same rows. -/
theorem NoLastingEffect.spends_eq {s s' t t' : UtxoStore} (h : NoLastingEffect s s')
    (call : ApplyCall) {res res' : SpendResult}
    (hs : s.applyBlock (.stored _ _) .none call.height call.txs call.inputs call.outputs =
      (.ok res, t))
    (hs' : s'.applyBlock (.stored _ _) .none call.height call.txs call.inputs call.outputs =
      (.ok res', t')) : res'.spends = res.spends := by
  have hrun : applyCalls (fun _ => .stored _ _) s [call] = [(.ok res, t)] := by
    simp only [applyCalls, hs]
  have hrun' : applyCalls (fun _ => .stored _ _) s' [call] = [(.ok res', t')] := by
    simp only [applyCalls, hs']
  have hok : AllOk (applyCalls (fun _ => .stored _ _) s [call]) := by
    rw [hrun]
    intro out hout
    rw [List.mem_singleton.mp hout]
    exact ⟨res, rfl⟩
  have hsame := h (fun _ => .stored _ _) (fun _ => .stored _ _) [call] hok
  rw [hrun, hrun'] at hsame
  have hanswer := (Prod.mk.inj (List.cons.inj hsame).1).1
  exact congrArg Prod.fst (Except.ok.inj hanswer)

/-- Stores that differ in the cache alone and cannot be told apart find the same at every
outpoint. -/
theorem NoLastingEffect.found_eq {s : UtxoStore} {c c' : RecentUtxoCache}
    (h : NoLastingEffect s { s with recent := some c' }) (hs : s.recent = some c)
    {inp : InputRow} (hcb : inp.isCoinbase = false) (hindex : inp.txIndex.toNat = 0) :
    (c'.map.lookup inp.key).or (s.db.value inp.key) =
      (c.map.lookup inp.key).or (s.db.value inp.key) := by
  obtain ⟨res, t, hcall, hspends⟩ := applyBlock_probe (.stored _ _) hs (sampleTx 0 0) hcb hindex
  have hs' : ({ s with recent := some c' } : UtxoStore).recent = some c' := rfl
  obtain ⟨res', t', hcall', hspends'⟩ :=
    applyBlock_probe (.stored _ _) hs' (sampleTx 0 0) hcb hindex
  have hsame := h.spends_eq ⟨0, [sampleTx 0 0], [inp], []⟩ hcall hcall'
  rw [hspends, hspends'] at hsame
  have hrow := congrArg List.head? hsame
  rw [Option.head?_toList, Option.head?_toList] at hrow
  exact Option.map_injective (spendRow_injective 0 inp) hrow

/-- If a failed write has no lasting effect, the database had the block's outputs. -/
theorem FailsWithoutEffect.outputsStored {cacheBytes : Nat} {db : Db} {height : UInt32}
    {txs : List TxRow} {inputs : List InputRow} {outputs : List OutputRow}
    (h : FailsWithoutEffect cacheBytes db .write height txs inputs outputs)
    (hrange : RowsInRange txs inputs outputs) (hroom : cacheEntryCost ≤ cacheBytes) :
    OutputsStored db height inputs outputs := by
  intro k v hseeded hunspent
  -- On a cache just opened, iterated so that `k` is published last.
  obtain ⟨st, hloop, hcall⟩ := applyBlock_write_failed (.endingAt k)
    (.openCached db cacheBytes) height hrange
  have hnone := h _ _ (.endingAt k) (.opened db) rfl hcall
  obtain ⟨keys, hleft⟩ := @cacheLeft_resolveInputs db false RocksFailure.write.faults height
    inputs (initialLoop (some (RecentUtxoCache.new cacheBytes)) height txs outputs)
  have hrecent : st.recent =
      some ((RecentUtxoCache.new cacheBytes).performAll (keys.map .remove)) := by
    have hloop' : resolveInputs db false RocksFailure.write.faults height inputs
      (initialLoop (some (RecentUtxoCache.new cacheBytes)) height txs outputs) = .ok st := hloop
    rw [hloop'] at hleft
    exact hleft
  have hpending : st.pending.lookup k = some v := by
    rw [pending_resolveInputs hloop k, if_neg hunspent]
    exact hseeded
  have hresident := ((RecentUtxoCache.idle_new cacheBytes).performAll_removes
    keys).lookup_publish_last hroom hpending
  rw [hrecent, Option.map_some] at hnone
  -- A later block that spends `k` tells the two stores apart, unless they agree on it.
  have hcreated : k ∈ createdKeys outputs := by
    by_contra hnot
    rw [lookup_seedPending_eq_none.mpr hnot] at hseeded
    contradiction
  obtain ⟨out, -, rfl⟩ := List.mem_map.mp hcreated
  let inp : InputRow :=
    { sampleSpend 0 0 with prevTxid := out.txid, prevVout := out.outputIndex }
  have hfresh : (RecentUtxoCache.new cacheBytes).map.lookup inp.key = none :=
    AList.lookup_empty _
  have hvalue : db.value out.key = some v := by
    have hfound := hnone.found_eq rfl (show inp.isCoinbase = false from rfl) rfl
    rw [show inp.key = out.key from rfl] at hfound hfresh
    rw [hresident, hfresh, Option.some_or, Option.none_or] at hfound
    exact hfound.symm
  obtain ⟨raw, hraw, hdec⟩ := Option.bind_eq_some_iff.mp hvalue
  rw [hraw, UtxoValue.encode_of_decode hdec]

/-- A failed call has no lasting effect if a read failed, if the cache has no room for an
entry, or if the database already has every output the block leaves unspent.  On rows
that belong to the block's transactions it has none only then. -/
theorem applyBlock_failsWithoutEffect_iff (cacheBytes : Nat) (db : Db) (failure : RocksFailure)
    (height : UInt32) (txs : List TxRow) (inputs : List InputRow) (outputs : List OutputRow) :
    (failure ≠ .write ∨ cacheBytes < cacheEntryCost ∨ OutputsStored db height inputs outputs →
        FailsWithoutEffect cacheBytes db failure height txs inputs outputs) ∧
      (RowsInRange txs inputs outputs →
        FailsWithoutEffect cacheBytes db failure height txs inputs outputs →
        failure ≠ .write ∨ cacheBytes < cacheEntryCost ∨
          OutputsStored db height inputs outputs) := by
  constructor
  · rintro hcond s s' order hs rfl hcall
    rcases applyBlock_rocks hcall with ⟨aborted, hloop, rfl⟩ | ⟨st, hloop, hwrite, rfl⟩
    · exact noLastingEffect_of_aborted hs hloop
    · rcases hcond with hread | hroom | hstored
      · cases failure with
        | read position => exact absurd hwrite Bool.false_ne_true
        | write => exact absurd rfl hread
      · exact noLastingEffect_of_no_room hs hroom hcall
      · exact noLastingEffect_of_stored hs hloop hstored
  · intro hrange h
    by_cases hwrite : failure = .write
    · subst hwrite
      by_cases hroom : cacheBytes < cacheEntryCost
      · exact .inr (.inl hroom)
      · exact .inr (.inr (h.outputsStored hrange (Nat.not_lt.mp hroom)))
    · exact .inl hwrite

/-- A write that fails on the first block of a cached store leaves its output in the cache. -/
theorem failed_write_has_effect :
    ∃ s', (UtxoStore.openCached sampleDb 112).applyBlock (.stored _ _) RocksFailure.write.faults 7
        [sampleTx 0 2] [] [sampleOutput 0 2 4] = (.error (.error .rocks), s') ∧
      ¬NoLastingEffect (.openCached sampleDb 112) s' := by
  refine ⟨_, rfl, fun h => ?_⟩
  have hfound := h.found_eq rfl (show (sampleSpend 0 2).isCoinbase = false from rfl) rfl
  revert hfound
  decide +kernel

end Bidx
