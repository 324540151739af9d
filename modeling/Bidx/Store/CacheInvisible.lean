import Bidx.Store.Utxo

/-!
# The recent-UTXO cache is invisible

A store with the cache and a store without it answer every `apply_block` alike
and leave the same database.  At block boundaries every resident cache entry is
the database's own entry (`Coherent`).  Inside a block the two input loops run
in lockstep (`CacheSim`): where the cached loop takes a hit, the plain loop finds
the same value in the database and both put the same delete in their batch.  An
outpoint with a delete in the batch has left the cache, so the entries that
survive the block are still the database's after the batch is written.
-/

namespace Bidx

open KeyValue

/-! ## Coherence -/

/-- Every resident entry is the database's own. -/
def RecentUtxoCache.Coherent (c : RecentUtxoCache) (db : Db) : Prop :=
  ∀ k v, c.map.lookup k = some v → db.utxo k = some v.encode

namespace RecentUtxoCache

theorem coherent_new (budgetBytes : Nat) (db : Db) : (new budgetBytes).Coherent db := by
  intro k v h
  change (∅ : UtxoMap).lookup k = some v at h
  rw [AList.lookup_empty] at h
  contradiction

/-- Removing a key leaves the other entries and nothing else. -/
theorem lookup_erase_some {m : UtxoMap} {a k : Key} {v : UtxoValue}
    (h : (m.erase a).lookup k = some v) : m.lookup k = some v ∧ k ≠ a := by
  by_cases hk : k = a
  · subst hk
    rw [AList.lookup_erase] at h
    contradiction
  · rw [AList.lookup_erase_ne hk] at h
    exact ⟨h, hk⟩

/-- Eviction only ever drops entries. -/
theorem lookup_evictLoop {budgetBytes : Nat} {map : UtxoMap} {order : List Key} {k : Key}
    {v : UtxoValue} (h : (evictLoop budgetBytes map order).1.lookup k = some v) :
    map.lookup k = some v := by
  induction order generalizing map with
  | nil => exact h
  | cons key order ih =>
      unfold evictLoop at h
      split at h
      · exact (lookup_erase_some (ih h)).1
      · exact h

/-- After an insertion an entry is the inserted one or an older one under
another key. -/
theorem lookup_insert {c : RecentUtxoCache} {key k : Key} {val v : UtxoValue}
    (h : (c.insert key val).map.lookup k = some v) :
    (k = key ∧ v = val) ∨ (k ≠ key ∧ c.map.lookup k = some v) := by
  have hmap : (c.map.insert key val).lookup k = some v := by
    unfold insert at h
    split at h
    · exact h
    · exact lookup_evictLoop h
  by_cases hk : k = key
  · subst hk
    rw [AList.lookup_insert] at hmap
    exact .inl ⟨rfl, (Option.some.inj hmap).symm⟩
  · rw [AList.lookup_insert_ne hk] at hmap
    exact .inr ⟨hk, hmap⟩

/-- After publishing, an entry is one of the pending map or an older one under a
key the pending map does not have. -/
theorem lookup_publish {order : IterOrder Key UtxoValue} {pending : UtxoMap}
    {c : RecentUtxoCache} {k : Key} {v : UtxoValue}
    (h : (publish order pending c).map.lookup k = some v) :
    pending.lookup k = some v ∨ (pending.lookup k = none ∧ c.map.lookup k = some v) := by
  have hlist : ∀ (l : List (Sigma fun _ : Key => UtxoValue)) (c : RecentUtxoCache),
      (l.foldl (fun c e => c.insert e.1 e.2) c).map.lookup k = some v →
        ⟨k, v⟩ ∈ l ∨ (k ∉ l.map Sigma.fst ∧ c.map.lookup k = some v) := by
    intro l
    induction l with
    | nil => exact fun c h => .inr ⟨List.not_mem_nil, h⟩
    | cons e l ih =>
        intro c h
        rcases ih _ h with hmem | ⟨hnot, hold⟩
        · exact .inl (List.mem_cons_of_mem _ hmem)
        · rcases lookup_insert hold with ⟨rfl, rfl⟩ | ⟨hne, hold⟩
          · exact .inl List.mem_cons_self
          · refine .inr ⟨?_, hold⟩
            rw [List.map_cons, List.mem_cons, not_or]
            exact ⟨hne, hnot⟩
  rcases hlist _ _ h with hmem | ⟨hnot, hold⟩
  · rw [(order.perm pending).mem_iff] at hmem
    exact .inl (AList.mem_lookup_iff.mpr hmem)
  · rw [((order.perm pending).map Sigma.fst).mem_iff] at hnot
    exact .inr ⟨AList.lookup_eq_none.mpr hnot, hold⟩

end RecentUtxoCache

/-! ## The two input loops -/

/-- The cached loop state `c` against the plain one `p`, over the same database. -/
structure CacheSim (db : Db) (c p : InputLoop) : Prop where
  pending : c.pending = p.pending
  batch : c.batch = p.batch
  spends : c.spends = p.spends
  fees : c.fees = p.fees
  missing : c.missing = p.missing
  plain : p.recent = none
  cache : ∃ cache, c.recent = some cache ∧ cache.Coherent db ∧
    ∀ k ∈ c.batch.map Op.key, cache.map.lookup k = none

/-- Both loops go on in step, or both panic. -/
inductive LoopSim (db : Db) : Except Aborted InputLoop → Except Aborted InputLoop → Prop
  | ok {c p : InputLoop} (sim : CacheSim db c p) : LoopSim db (.ok c) (.ok p)
  | panic (recent recent' : Option RecentUtxoCache) :
      LoopSim db (.error ⟨.panic, recent⟩) (.error ⟨.panic, recent'⟩)

variable {db : Db} {height : UInt32}

theorem recordSpend_sim {c p : InputLoop} (sim : CacheSim db c p) (inp : InputRow)
    (v : UtxoValue) :
    LoopSim db (recordSpend height inp v c) (recordSpend height inp v p) := by
  unfold recordSpend
  rw [← sim.fees, ← sim.spends]
  split
  · exact .ok ⟨sim.pending, sim.batch, rfl, rfl, sim.missing, sim.plain, sim.cache⟩
  · exact .panic _ _

/-- One round keeps the two loops in step. -/
theorem resolveInput_sim {c p : InputLoop} (sim : CacheSim db c p) (inp : InputRow) :
    LoopSim db (resolveInput db false .none height c inp)
      (resolveInput db false .none height p inp) := by
  obtain ⟨cache, hrecent, hcoherent, hbatch⟩ := sim.cache
  unfold resolveInput
  cases inp.isCoinbase with
  | true => exact .ok sim
  | false =>
      simp only [Bool.false_eq_true, if_false, ← sim.pending, hrecent, sim.plain, removeRecent,
        RecentUtxoCache.remove]
      cases c.pending.lookup inp.key with
      | some v =>
          refine recordSpend_sim ?_ inp v
          exact ⟨rfl, sim.batch, sim.spends, sim.fees, sim.missing, rfl,
            cache, rfl, hcoherent, hbatch⟩
      | none =>
          cases hhit : cache.map.lookup inp.key with
          | some v =>
              -- A hit: the plain loop reads the same value from the database.
              have hvalue : (db.utxo inp.key).bind UtxoValue.decode = some v := by
                rw [hcoherent _ _ hhit, Option.bind_some, UtxoValue.decode_encode]
              simp only [lookupDb, RocksFaults.none, Bool.false_eq_true, if_false, hvalue]
              refine recordSpend_sim ?_ inp v
              refine ⟨rfl, ?_, sim.spends, sim.fees, sim.missing, rfl, _, rfl, ?_, ?_⟩
              · rw [sim.batch]
              · intro k w hk
                exact hcoherent k w (RecentUtxoCache.lookup_erase_some hk).1
              · intro k hk
                simp only [List.map_append, List.mem_append, List.map_cons, List.map_nil,
                  List.mem_singleton] at hk
                by_contra hres
                obtain ⟨w, hw⟩ := Option.ne_none_iff_exists'.mp hres
                obtain ⟨hold, hne⟩ := RecentUtxoCache.lookup_erase_some hw
                rcases hk with hk | rfl
                · rw [hbatch k hk] at hold
                  contradiction
                · exact hne rfl
          | none =>
              simp only [lookupDb, RocksFaults.none, Bool.false_eq_true, if_false]
              cases (db.utxo inp.key).bind UtxoValue.decode with
              | none =>
                  refine .ok ?_
                  exact ⟨rfl, sim.batch, sim.spends, sim.fees,
                    congrArg (· + 1) sim.missing, rfl, _, rfl, hcoherent, hbatch⟩
              | some v =>
                  refine recordSpend_sim ?_ inp v
                  refine ⟨rfl, ?_, sim.spends, sim.fees, sim.missing, rfl, _, rfl, hcoherent, ?_⟩
                  · rw [sim.batch]
                  · intro k hk
                    simp only [List.map_append, List.mem_append, List.map_cons, List.map_nil,
                      List.mem_singleton] at hk
                    rcases hk with hk | rfl
                    · exact hbatch k hk
                    · exact hhit

/-- The whole loop: by induction over the inputs. -/
theorem resolveInputs_sim {c p : InputLoop} (sim : CacheSim db c p) (inputs : List InputRow) :
    LoopSim db (resolveInputs db false .none height inputs c)
      (resolveInputs db false .none height inputs p) := by
  induction inputs generalizing c p with
  | nil => exact .ok sim
  | cons inp inputs ih =>
      unfold resolveInputs
      have hstep : LoopSim db (resolveInput db false .none height c inp)
          (resolveInput db false .none height p inp) := resolveInput_sim sim inp
      generalize resolveInput db false .none height c inp = rc at hstep
      generalize resolveInput db false .none height p inp = rp at hstep
      cases hstep with
      | ok sim' => exact ih sim'
      | panic => exact .panic _ _

/-! ## The call -/

/-- What a call returns to its caller, counters apart. -/
def SpendResult.observed (r : SpendResult) : List SpendRow × List UInt64 × Nat :=
  (r.spends, r.fees, r.missing)

/-- A cached store and a plain one over the same database, at a block boundary. -/
structure CachedTwin (s t : UtxoStore) : Prop where
  db : s.db = t.db
  cachedBulk : s.undoEnabled = false
  plainBulk : t.undoEnabled = false
  plain : t.recent = none
  cache : ∃ cache, s.recent = some cache ∧ cache.Coherent s.db

theorem cachedTwin_open (db : Db) (cacheBytes : Nat) :
    CachedTwin (.openCached db cacheBytes) (.openBulk db) :=
  ⟨rfl, rfl, rfl, rfl, _, rfl, RecentUtxoCache.coherent_new _ _⟩

/-- The batches of two loop states in step write the same table, in whatever
orders the two pending maps are iterated. -/
theorem CacheSim.write_batch {c p : InputLoop} (sim : CacheSim db c p)
    (order order' : IterOrder Key UtxoValue) (outputs : List OutputRow) :
    db.write (blockBatch order false height outputs c) =
      db.write (blockBatch order' false height outputs p) := by
  have hutxo : write db.utxo (blockBatch order false height outputs c).utxo =
      write db.utxo (blockBatch order' false height outputs p).utxo := by
    funext k
    simp only [blockBatch, write_append, write_puts_iterOrder, sim.pending, sim.batch]
  rw [Db.write, Db.write, hutxo]
  rfl

/-- The published cache is coherent with the written table. -/
theorem CacheSim.coherent_publish {c p : InputLoop} (sim : CacheSim db c p)
    (order order' : IterOrder Key UtxoValue) (outputs : List OutputRow) :
    ∃ cache, c.recent.map (publish order c.pending) = some cache ∧
      cache.Coherent (db.write (blockBatch order' false height outputs c)) := by
  obtain ⟨cache, hrecent, hcoherent, hbatch⟩ := sim.cache
  refine ⟨publish order c.pending cache, by rw [hrecent, Option.map_some], ?_⟩
  intro k v hk
  change write db.utxo (c.batch ++ _) k = _
  rw [write_append, write_puts_iterOrder]
  rcases RecentUtxoCache.lookup_publish hk with hpend | ⟨hpend, hold⟩
  · rw [hpend, Option.map_some, Option.some_or]
  · -- An older entry: the batch has no delete for it, so it is still in the table.
    have hnot : k ∉ c.batch.map Op.key := by
      intro hmem
      rw [hbatch k hmem] at hold
      contradiction
    rw [hpend, Option.map_none, Option.none_or, write_of_notMem hnot]
    exact hcoherent k v hold

/-- One call: same answer, same database, and twins again unless it panicked. -/
theorem applyBlock_twin {s t : UtxoStore} (twin : CachedTwin s t)
    (order order' : IterOrder Key UtxoValue) (height : UInt32) (txs : List TxRow)
    (inputs : List InputRow) (outputs : List OutputRow) :
    (∃ res res' s' t', s.applyBlock order .none height txs inputs outputs = (.ok res, s') ∧
      t.applyBlock order' .none height txs inputs outputs = (.ok res', t') ∧
      res.observed = res'.observed ∧ CachedTwin s' t') ∨
    (∃ s' t', s.applyBlock order .none height txs inputs outputs = (.error .panic, s') ∧
      t.applyBlock order' .none height txs inputs outputs = (.error .panic, t') ∧
      s'.db = t'.db) := by
  obtain ⟨cache, hcache, hcoherent⟩ := twin.cache
  have hstart : CacheSim s.db (initialLoop s.recent height txs outputs)
      (initialLoop t.recent height txs outputs) := by
    refine ⟨rfl, rfl, rfl, rfl, rfl, twin.plain, cache, hcache, hcoherent, ?_⟩
    intro k hk
    cases hk
  have hloop : LoopSim s.db
      (resolveInputs s.db false .none height inputs (initialLoop s.recent height txs outputs))
      (resolveInputs s.db false .none height inputs (initialLoop t.recent height txs outputs)) :=
    resolveInputs_sim hstart inputs
  unfold UtxoStore.applyBlock
  rw [twin.cachedBulk, twin.plainBulk, ← twin.db]
  generalize resolveInputs s.db false .none height inputs
    (initialLoop s.recent height txs outputs) = rc at hloop
  generalize resolveInputs s.db false .none height inputs
    (initialLoop t.recent height txs outputs) = rp at hloop
  cases hloop with
  | panic => exact .inr ⟨_, _, rfl, rfl, rfl⟩
  | @ok c p sim =>
      simp only [← sim.fees]
      cases subtractOutputs outputs c.fees with
      | none => exact .inr ⟨_, _, rfl, rfl, rfl⟩
      | some fees =>
          refine .inl ⟨_, _, _, _, rfl, rfl, ?_, ?_⟩
          · simp only [SpendResult.observed, sim.spends, sim.missing]
          · constructor
            case db => exact sim.write_batch order order' outputs
            case cachedBulk => rfl
            case plainBulk => rfl
            case plain =>
              change p.recent.map _ = none
              rw [sim.plain, Option.map_none]
            case cache => exact sim.coherent_publish order order outputs

/-- A successful call on a cached store, against the plain one over the same database. -/
theorem CachedTwin.applied {order : IterOrder Key UtxoValue} {s s' : UtxoStore}
    {height : UInt32} {txs : List TxRow} {inputs : List InputRow} {outputs : List OutputRow}
    {res : SpendResult} (twin : CachedTwin s (.openBulk s.db))
    (h : s.applyBlock order .none height txs inputs outputs = (.ok res, s')) :
    CachedTwin s' (.openBulk s'.db) ∧ ∃ res' t',
      (UtxoStore.openBulk s.db).applyBlock order .none height txs inputs outputs =
        (.ok res', t') ∧ res.observed = res'.observed ∧ s'.db = t'.db := by
  rcases applyBlock_twin twin order order height txs inputs outputs with
    ⟨_, res', _, t', hs, ht, hres, htwin⟩ | ⟨_, _, hs, -, -⟩
  · rw [hs] at h
    cases h
    exact ⟨⟨rfl, htwin.cachedBulk, rfl, rfl, htwin.cache⟩, res', t', ht, hres, htwin.db⟩
  · rw [hs] at h
    cases h

/-! ## Runs of calls -/

/-- The arguments of one `apply_block` call. -/
structure ApplyCall where
  height : UInt32
  txs : List TxRow
  inputs : List InputRow
  outputs : List OutputRow

/-- A run of calls with its outcomes: each call's answer and the store after it.
A panic ends the run.  `orders` gives each call's iteration order, by the number
of calls still to come. -/
def applyCalls (orders : Nat → IterOrder Key UtxoValue) :
    UtxoStore → List ApplyCall → List (Except (Stop UtxoError) SpendResult × UtxoStore)
  | _, [] => []
  | s, call :: calls =>
      match s.applyBlock (orders calls.length) .none call.height call.txs call.inputs
          call.outputs with
      | (.ok res, s') => (.ok res, s') :: applyCalls orders s' calls
      | (.error stop, s') => [(.error stop, s')]

/-- What a run shows from outside: answers and databases. -/
def observedRun (run : List (Except (Stop UtxoError) SpendResult × UtxoStore)) :
    List (Except (Stop UtxoError) (List SpendRow × List UInt64 × Nat) × Db) :=
  run.map fun call => (call.1.map SpendResult.observed, call.2.db)

theorem observedRun_twin {s t : UtxoStore} (twin : CachedTwin s t)
    (orders orders' : Nat → IterOrder Key UtxoValue) (calls : List ApplyCall) :
    observedRun (applyCalls orders s calls) = observedRun (applyCalls orders' t calls) := by
  induction calls generalizing s t with
  | nil => rfl
  | cons call calls ih =>
      rw [applyCalls, applyCalls]
      rcases applyBlock_twin twin (orders calls.length) (orders' calls.length) call.height
        call.txs call.inputs call.outputs with
        ⟨res, res', s', t', hs, ht, hres, htwin⟩ | ⟨s', t', hs, ht, hdb⟩
      · rw [hs, ht]
        change (Except.ok res.observed, s'.db) :: observedRun (applyCalls orders s' calls) =
          (Except.ok res'.observed, t'.db) :: observedRun (applyCalls orders' t' calls)
        rw [hres, htwin.db, ih htwin]
      · rw [hs, ht]
        change [(Except.error Stop.panic, s'.db)] = [(Except.error Stop.panic, t'.db)]
        rw [hdb]

/-- A store opened with the cache and one opened without it are told apart by no
run of `apply_block` calls: not by its answers, not by the database after any
call, whatever the budget and the iteration orders. -/
theorem applyCalls_cached_eq_bulk (db : Db) (cacheBytes : Nat)
    (orders orders' : Nat → IterOrder Key UtxoValue) (calls : List ApplyCall) :
    observedRun (applyCalls orders (.openCached db cacheBytes) calls) =
      observedRun (applyCalls orders' (.openBulk db) calls) :=
  observedRun_twin (cachedTwin_open db cacheBytes) orders orders' calls

end Bidx
