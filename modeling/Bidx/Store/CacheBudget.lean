import Bidx.Store.ApplySpec

/-!
# The memory of the recent-UTXO cache

A cache is driven by insertions and removals, in any number and order.  Every resident
key stays in the queue, so eviction always finds something to drop and the map stays
within the budget.

The queue does not.  A removal leaves its key there and only an eviction takes it out,
so a cache whose map never fills grows by one queue entry for every outpoint created and
spent.  It is bounded only where the budget is too small for a single entry.
-/

namespace Bidx

open KeyValue

/-- One call on the cache. -/
inductive CacheOp where
  | insert (key : Key) (val : UtxoValue)
  | remove (key : Key)

/-- How the loop of `evict_to_budget` ends. -/
inductive EvictExit where
  /-- The loop condition failed. -/
  | withinBudget
  /-- `pop_front` found the queue empty. -/
  | exhausted
deriving DecidableEq

namespace RecentUtxoCache

/-- The exit `evict_to_budget` takes. -/
def evictExit (budgetBytes : Nat) : UtxoMap → List Key → EvictExit
  | map, [] =>
      if budgetBytes < map.keys.length * cacheEntryCost then .exhausted else .withinBudget
  | map, key :: order =>
      if budgetBytes < map.keys.length * cacheEntryCost then
        evictExit budgetBytes (map.erase key) order
      else
        .withinBudget

/-- The cache after a call. -/
def perform (c : RecentUtxoCache) : CacheOp → RecentUtxoCache
  | .insert key val => c.insert key val
  | .remove key => (c.remove key).2

/-- The exit of the eviction a call runs, when it runs one. -/
def exitOf (c : RecentUtxoCache) : CacheOp → Option EvictExit
  | .insert key val =>
      match c.map.lookup key with
      | some _ => none
      | none => some (evictExit c.budgetBytes (c.map.insert key val) (c.order ++ [key]))
  | .remove _ => none

/-- The cache after a sequence of calls. -/
def performAll (c : RecentUtxoCache) (ops : List CacheOp) : RecentUtxoCache :=
  ops.foldl perform c

@[simp] theorem performAll_nil (c : RecentUtxoCache) : c.performAll [] = c := rfl

theorem performAll_append (c : RecentUtxoCache) (ops ops' : List CacheOp) :
    c.performAll (ops ++ ops') = (c.performAll ops).performAll ops' := by
  rw [performAll, performAll, performAll, List.foldl_append]

/-! ## Eviction -/

section Evict

variable {budgetBytes : Nat} {map : UtxoMap} {order : List Key}

theorem evictLoop_of_fits (h : map.keys.length * cacheEntryCost ≤ budgetBytes) :
    evictLoop budgetBytes map order = (map, order) := by
  cases order with
  | nil => rfl
  | cons key order => rw [evictLoop, if_neg (Nat.not_lt.mpr h)]

/-- The loop exits through the empty queue exactly when it leaves the map too large. -/
theorem evictExit_eq_exhausted : evictExit budgetBytes map order = .exhausted ↔
    budgetBytes < (evictLoop budgetBytes map order).1.keys.length * cacheEntryCost := by
  induction order generalizing map with
  | nil =>
      rw [evictExit, evictLoop]
      split <;> simp [*]
  | cons key order ih =>
      rw [evictExit, evictLoop]
      by_cases hover : budgetBytes < map.keys.length * cacheEntryCost
      · rw [if_pos hover, if_pos hover]
        exact ih
      · rw [if_neg hover, if_neg hover]
        simp [hover]

theorem mem_erase_of_mem_cons {key : Key} (h : ∀ k ∈ map, k ∈ key :: order) :
    ∀ k ∈ map.erase key, k ∈ order := by
  intro k hk
  obtain ⟨hne, hmem⟩ := AList.mem_erase.mp hk
  exact List.mem_of_ne_of_mem hne (h k hmem)

/-- Dropping from the front of the queue keeps every resident key queued. -/
theorem evictLoop_queued (h : ∀ k ∈ map, k ∈ order) :
    ∀ k ∈ (evictLoop budgetBytes map order).1, k ∈ (evictLoop budgetBytes map order).2 := by
  induction order generalizing map with
  | nil => exact h
  | cons key order ih =>
      rw [evictLoop]
      split
      · exact ih (mem_erase_of_mem_cons h)
      · exact h

/-- A loop whose queue holds every resident key ends within the budget: when the queue is
empty, so is the map. -/
theorem evictLoop_fits (h : ∀ k ∈ map, k ∈ order) :
    (evictLoop budgetBytes map order).1.keys.length * cacheEntryCost ≤ budgetBytes := by
  induction order generalizing map with
  | nil =>
      have hempty : map.keys = [] := by
        apply List.eq_nil_iff_forall_not_mem.mpr
        intro k hk
        exact absurd (h k hk) List.not_mem_nil
      rw [evictLoop, hempty, List.length_nil, Nat.zero_mul]
      exact Nat.zero_le _
  | cons key order ih =>
      rw [evictLoop]
      split
      · exact ih (mem_erase_of_mem_cons h)
      · exact Nat.not_lt.mp (by assumption)

end Evict

/-! ## The budget -/

/-- A cache as its calls leave it. -/
structure WithinBudget (budgetBytes : Nat) (c : RecentUtxoCache) : Prop where
  budget : c.budgetBytes = budgetBytes
  queued : ∀ k ∈ c.map, k ∈ c.order
  fits : c.map.keys.length * cacheEntryCost ≤ budgetBytes

theorem withinBudget_new (budgetBytes : Nat) : WithinBudget budgetBytes (new budgetBytes) := by
  refine ⟨rfl, ?_, Nat.zero_le _⟩
  intro k hk
  exact absurd hk (AList.notMem_empty k)

section Calls

variable {budgetBytes : Nat} {c : RecentUtxoCache}

theorem mem_insert_queue (h : WithinBudget budgetBytes c) (key : Key) (val : UtxoValue) :
    ∀ k ∈ c.map.insert key val, k ∈ c.order ++ [key] := by
  intro k hk
  rcases (AList.mem_insert _).mp hk with rfl | hold
  · exact List.mem_append_right _ List.mem_cons_self
  · exact List.mem_append_left _ (h.queued k hold)

theorem length_keys_insert {map : UtxoMap} {key : Key} {old : UtxoValue}
    (h : map.lookup key = some old) (val : UtxoValue) :
    (map.insert key val).keys.length = map.keys.length := by
  have hmem : key ∈ map.keys := mem_keys_of_lookup h
  rw [AList.keys_insert, List.length_cons, List.length_erase_of_mem hmem]
  have := List.length_pos_of_mem hmem
  omega

theorem length_keys_erase_le (map : UtxoMap) (key : Key) :
    (map.erase key).keys.length ≤ map.keys.length := by
  rw [AList.keys_erase]
  exact List.length_erase_le

/-- One call keeps the invariant. -/
theorem WithinBudget.perform (h : WithinBudget budgetBytes c) (op : CacheOp) :
    WithinBudget budgetBytes (c.perform op) := by
  cases op with
  | insert key val =>
      cases hlookup : c.map.lookup key with
      | some old =>
          -- A refresh: the keys are what they were.
          simp only [RecentUtxoCache.perform, insert, hlookup]
          refine ⟨h.budget, ?_, ?_⟩
          · intro k hk
            rcases (AList.mem_insert _).mp hk with rfl | hold
            · exact h.queued k (mem_keys_of_lookup hlookup)
            · exact h.queued k hold
          · rw [length_keys_insert hlookup]
            exact h.fits
      | none =>
          simp only [RecentUtxoCache.perform, insert, hlookup, evictToBudget, h.budget]
          have hqueued := mem_insert_queue h key val
          exact ⟨rfl, evictLoop_queued hqueued, evictLoop_fits hqueued⟩
  | remove key =>
      cases hlookup : c.map.lookup key with
      | some v =>
          simp only [RecentUtxoCache.perform, remove, hlookup]
          refine ⟨h.budget, ?_, ?_⟩
          · intro k hk
            exact h.queued k (AList.mem_erase.mp hk).2
          · exact (Nat.mul_le_mul_right _ (length_keys_erase_le c.map key)).trans h.fits
      | none =>
          simp only [RecentUtxoCache.perform, remove, hlookup]
          exact ⟨h.budget, h.queued, h.fits⟩

theorem WithinBudget.exitOf_ne (h : WithinBudget budgetBytes c) (op : CacheOp) :
    c.exitOf op ≠ some .exhausted := by
  cases op with
  | insert key val =>
      cases hlookup : c.map.lookup key with
      | some old => simp [exitOf, hlookup]
      | none =>
          simp only [exitOf, hlookup, ne_eq, Option.some.injEq, evictExit_eq_exhausted]
          rw [h.budget]
          exact Nat.not_lt.mpr (evictLoop_fits (mem_insert_queue h key val))
  | remove key => exact fun h => nomatch h

theorem WithinBudget.performAll (h : WithinBudget budgetBytes c) (ops : List CacheOp) :
    WithinBudget budgetBytes (c.performAll ops) := by
  induction ops generalizing c with
  | nil => exact h
  | cons op ops ih => exact ih (h.perform op)

end Calls

/-- After each call of any sequence, every resident key is queued and the map is within
the budget; and no eviction of the sequence ran out of queue. -/
theorem performAll_withinBudget (budgetBytes : Nat) (ops : List CacheOp) (op : CacheOp) :
    WithinBudget budgetBytes ((new budgetBytes).performAll (ops ++ [op])) ∧
      ((new budgetBytes).performAll ops).exitOf op ≠ some .exhausted := by
  have hreached := withinBudget_new budgetBytes
  exact ⟨hreached.performAll (ops ++ [op]), (hreached.performAll ops).exitOf_ne op⟩

end RecentUtxoCache

/-! ## The calls of `apply_block` -/

/-- The cache a loop hands on, whether it went through or not. -/
def cacheLeft : Except Aborted InputLoop → Option RecentUtxoCache
  | .ok st => st.recent
  | .error aborted => aborted.recent

section ApplyBlock

variable {db : Db} {undoEnabled : Bool} {faults : RocksFaults} {height : UInt32}

theorem cacheLeft_recordSpend (inp : InputRow) (v : UtxoValue) (st : InputLoop) :
    cacheLeft (recordSpend height inp v st) = st.recent := by
  rw [recordSpend]
  split <;> rfl

theorem cacheLeft_lookupDb (inp : InputRow) (st : InputLoop) :
    cacheLeft (lookupDb db undoEnabled faults height inp st) = st.recent := by
  rw [lookupDb]
  split
  · rfl
  · split
    · rw [cacheLeft_recordSpend]
    · rfl

theorem removeRecent_perform (recent : Option RecentUtxoCache) (key : Key) :
    (removeRecent recent key).2 = recent.map fun c => c.performAll ([key].map .remove) := by
  cases recent <;> rfl

/-- A round makes at most one call on the cache, a removal. -/
theorem cacheLeft_resolveInput (inp : InputRow) (st : InputLoop) :
    ∃ keys : List Key, cacheLeft (resolveInput db undoEnabled faults height st inp) =
      st.recent.map fun c => c.performAll (keys.map .remove) := by
  have hsame : st.recent = st.recent.map fun c => c.performAll (List.map .remove []) := by simp
  rw [resolveInput]
  split
  · exact ⟨[], hsame⟩
  · split
    · rw [cacheLeft_recordSpend]
      exact ⟨[], hsame⟩
    · have hremoved := removeRecent_perform st.recent inp.key
      refine ⟨[inp.key], ?_⟩
      split
      · rename_i hhit
        rw [cacheLeft_recordSpend, ← hremoved, hhit]
      · rename_i hmiss
        rw [cacheLeft_lookupDb, ← hremoved, hmiss]

theorem cacheLeft_resolveInputs (inputs : List InputRow) (st : InputLoop) :
    ∃ keys : List Key, cacheLeft (resolveInputs db undoEnabled faults height inputs st) =
      st.recent.map fun c => c.performAll (keys.map .remove) := by
  induction inputs generalizing st with
  | nil => exact ⟨[], by simp [resolveInputs, cacheLeft]⟩
  | cons inp inputs ih =>
      obtain ⟨keys, hstep⟩ := @cacheLeft_resolveInput db undoEnabled faults height inp st
      rw [resolveInputs]
      cases hres : resolveInput db undoEnabled faults height st inp with
      | error aborted =>
          rw [hres] at hstep
          exact ⟨keys, hstep⟩
      | ok st₁ =>
          rw [hres] at hstep
          have hrecent : st₁.recent = st.recent.map fun c => c.performAll (keys.map .remove) :=
            hstep
          obtain ⟨keys', hrest⟩ := ih st₁
          refine ⟨keys ++ keys', ?_⟩
          dsimp only
          rw [hrest, hrecent, Option.map_map, List.map_append]
          simp only [Function.comp_def, RecentUtxoCache.performAll_append]

theorem publish_performAll (order : IterOrder Key UtxoValue) (pending : UtxoMap)
    (c : RecentUtxoCache) : publish order pending c =
      c.performAll ((order.list pending).map fun e => .insert e.1 e.2) := by
  rw [publish, RecentUtxoCache.performAll, List.foldl_map]
  rfl

/-- Whatever a call answers, its cache is the old one after some insertions and
removals. -/
theorem recent_applyBlock (order : IterOrder Key UtxoValue) (faults : RocksFaults)
    (s : UtxoStore) (height : UInt32) (txs : List TxRow) (inputs : List InputRow)
    (outputs : List OutputRow) :
    ∃ ops, (s.applyBlock order faults height txs inputs outputs).2.recent =
      s.recent.map fun c => c.performAll ops := by
  obtain ⟨keys, hleft⟩ := @cacheLeft_resolveInputs s.db s.undoEnabled faults height inputs
    (initialLoop s.recent height txs outputs)
  -- What the loop leaves is published in one piece.
  have hpublished : ∀ st, resolveInputs s.db s.undoEnabled faults height inputs
      (initialLoop s.recent height txs outputs) = .ok st →
      st.recent.map (publish order st.pending) = s.recent.map fun c => c.performAll
        (keys.map .remove ++ (order.list st.pending).map fun e => .insert e.1 e.2) := by
    intro st hloop
    rw [hloop] at hleft
    have hst : st.recent = s.recent.map fun c => c.performAll (keys.map .remove) := hleft
    rw [hst, Option.map_map]
    simp only [Function.comp_def, publish_performAll, RecentUtxoCache.performAll_append]
  have hrun := applyBlock_run order faults s height txs inputs outputs
  generalize s.applyBlock order faults height txs inputs outputs = call at hrun ⊢
  cases hrun with
  | aborts hloop =>
      rw [hloop] at hleft
      exact ⟨_, hleft⟩
  | panics hloop => exact ⟨_, hpublished _ hloop⟩
  | writeFails hloop => exact ⟨_, hpublished _ hloop⟩
  | returns hloop => exact ⟨_, hpublished _ hloop⟩

end ApplyBlock

/-- A store opened with a cache of this budget, after any number of successful calls. -/
inductive OpenedCached (cacheBytes : Nat) : UtxoStore → Prop
  | opened (db : Db) : OpenedCached cacheBytes (.openCached db cacheBytes)
  | applied {s s' : UtxoStore} {order : IterOrder Key UtxoValue} {height : UInt32}
      {txs : List TxRow} {inputs : List InputRow} {outputs : List OutputRow} {res : SpendResult}
      (reached : OpenedCached cacheBytes s)
      (h : s.applyBlock order .none height txs inputs outputs = (.ok res, s')) :
      OpenedCached cacheBytes s'

/-- The cache of such a store was driven by insertions and removals alone. -/
theorem OpenedCached.performed {cacheBytes : Nat} {s : UtxoStore} (h : OpenedCached cacheBytes s) :
    ∃ ops, s.recent = some ((RecentUtxoCache.new cacheBytes).performAll ops) := by
  induction h with
  | opened db => exact ⟨[], rfl⟩
  | @applied s s' order height txs inputs outputs res _ hcall ih =>
      obtain ⟨ops, hops⟩ := ih
      obtain ⟨ops', hops'⟩ := recent_applyBlock order .none s height txs inputs outputs
      refine ⟨ops ++ ops', ?_⟩
      rw [hcall, hops] at hops'
      rw [hops', Option.map_some, RecentUtxoCache.performAll_append]

/-! ## The queue -/

namespace RecentUtxoCache

/-- The keys the cache holds, in the map and in the queue. -/
def heldKeys (c : RecentUtxoCache) : Nat := c.map.keys.length + c.order.length

/-- A cache that keeps nothing. -/
structure Idle (budgetBytes : Nat) (c : RecentUtxoCache) : Prop where
  budget : c.budgetBytes = budgetBytes
  keys : c.map.keys = []
  order : c.order = []

theorem lookup_of_keys_nil {map : UtxoMap} (h : map.keys = []) (key : Key) :
    map.lookup key = none := by
  rw [AList.lookup_eq_none, AList.mem_keys, h]
  exact List.not_mem_nil

theorem keys_erase_insert {map : UtxoMap} (h : map.keys = []) (key : Key) (val : UtxoValue) :
    ((map.insert key val).erase key).keys = [] := by
  rw [AList.keys_erase, AList.keys_insert, List.erase_cons_head, h, List.erase_nil]

theorem length_keys_insert_nil {map : UtxoMap} (h : map.keys = []) (key : Key)
    (val : UtxoValue) : (map.insert key val).keys.length = 1 := by
  rw [AList.keys_insert, h, List.erase_nil, List.length_singleton]

theorem Idle.perform_remove {budgetBytes : Nat} {c : RecentUtxoCache} (h : Idle budgetBytes c)
    (key : Key) : Idle budgetBytes (c.perform (.remove key)) := by
  simp only [RecentUtxoCache.perform, remove, lookup_of_keys_nil h.keys]
  exact ⟨h.budget, h.keys, h.order⟩

/-- With no room for an entry, an insertion is evicted at once and leaves the queue. -/
theorem Idle.perform {budgetBytes : Nat} {c : RecentUtxoCache} (h : Idle budgetBytes c)
    (hroom : budgetBytes < cacheEntryCost) (op : CacheOp) : Idle budgetBytes (c.perform op) := by
  cases op with
  | insert key val =>
      have hover : c.budgetBytes < (c.map.insert key val).keys.length * cacheEntryCost := by
        rw [length_keys_insert_nil h.keys, Nat.one_mul, h.budget]
        exact hroom
      simp only [RecentUtxoCache.perform, insert, lookup_of_keys_nil h.keys, evictToBudget,
        h.order, List.nil_append, evictLoop, if_pos hover]
      exact ⟨h.budget, keys_erase_insert h.keys key val, rfl⟩
  | remove key => exact h.perform_remove key

theorem idle_new (budgetBytes : Nat) : Idle budgetBytes (new budgetBytes) := ⟨rfl, rfl, rfl⟩

theorem idle_of_no_room {budgetBytes : Nat} (hroom : budgetBytes < cacheEntryCost)
    (ops : List CacheOp) : Idle budgetBytes ((new budgetBytes).performAll ops) := by
  induction ops using List.reverseRecOn with
  | nil => exact idle_new budgetBytes
  | append_singleton ops op ih =>
      rw [performAll_append]
      exact ih.perform hroom op

theorem heldKeys_of_no_room {budgetBytes : Nat} (hroom : budgetBytes < cacheEntryCost)
    (ops : List CacheOp) : ((new budgetBytes).performAll ops).heldKeys = 0 := by
  have hidle := idle_of_no_room hroom ops
  rw [heldKeys, hidle.keys, hidle.order]
  rfl

end RecentUtxoCache

/-- A reached store whose cache has an empty map and `count` queue entries. -/
def Churned (cacheBytes count : Nat) : Prop :=
  ∃ s c, OpenedCached cacheBytes s ∧ s.recent = some c ∧ c.budgetBytes = cacheBytes ∧
    c.map.keys = [] ∧ c.order.length = count

section Churn

variable {s : UtxoStore} {c : RecentUtxoCache}

/-- A block that creates one outpoint and spends nothing. -/
theorem applyBlock_create (hs : s.recent = some c) :
    ∃ res s', s.applyBlock (.stored _ _) .none 0 [sampleTx 0 1] [] [sampleOutput 0 1 1] =
        (.ok res, s') ∧
      s'.recent =
        some (c.insert (sampleOutput 0 1 1).key ((sampleOutput 0 1 1).value 0)) := by
  refine ⟨_, _, rfl, ?_⟩
  show s.recent.map _ = _
  rw [hs]
  rfl

/-- A block that spends it from the cache. -/
theorem applyBlock_spend {v : UtxoValue} (hs : s.recent = some c)
    (hhit : c.map.lookup (sampleSpend 0 1).key = some v) :
    ∃ res s', s.applyBlock (.stored _ _) .none 0 [sampleTx 0 2] [sampleSpend 0 1] [] =
        (.ok res, s') ∧
      s'.recent = some { c with
        map := c.map.erase (sampleSpend 0 1).key
        hits := c.hits + 1 } := by
  have hpending : (seedPending 0 []).lookup (sampleSpend 0 1).key = none := rfl
  have hround : resolveInputs s.db s.undoEnabled .none 0 [sampleSpend 0 1]
      (initialLoop s.recent 0 [sampleTx 0 2] []) =
        recordSpend 0 (sampleSpend 0 1) v { initialLoop s.recent 0 [sampleTx 0 2] [] with
          recent := some { c with
            map := c.map.erase (sampleSpend 0 1).key
            hits := c.hits + 1 }
          cacheHits := 1
          batch := [.delete (sampleSpend 0 1).key] } := by
    simp only [resolveInputs, resolveInput, initialLoop, hpending, hs, removeRecent,
      RecentUtxoCache.remove, hhit]
    rfl
  rw [UtxoStore.applyBlock, hround]
  exact ⟨_, _, rfl, rfl⟩

end Churn

theorem churned {cacheBytes : Nat} (hroom : cacheEntryCost ≤ cacheBytes) (count : Nat) :
    Churned cacheBytes count := by
  induction count with
  | zero =>
      exact ⟨.openCached ⟨fun _ => none, fun _ => none, none⟩ cacheBytes, _, .opened _, rfl, rfl,
        rfl, rfl⟩
  | succ count ih =>
      obtain ⟨s, c, hreached, hrecent, hbudget, hkeys, horder⟩ := ih
      obtain ⟨res₁, s₁, hcreate, hrecent₁⟩ := applyBlock_create hrecent
      have hfits : (c.map.insert (sampleOutput 0 1 1).key
          ((sampleOutput 0 1 1).value 0)).keys.length * cacheEntryCost ≤ c.budgetBytes := by
        rw [RecentUtxoCache.length_keys_insert_nil hkeys, Nat.one_mul, hbudget]
        exact hroom
      have hinsert : c.insert (sampleOutput 0 1 1).key ((sampleOutput 0 1 1).value 0) =
          { c with
            map := c.map.insert (sampleOutput 0 1 1).key ((sampleOutput 0 1 1).value 0)
            order := c.order ++ [(sampleOutput 0 1 1).key] } := by
        simp only [RecentUtxoCache.insert, RecentUtxoCache.lookup_of_keys_nil hkeys,
          RecentUtxoCache.evictToBudget, RecentUtxoCache.evictLoop_of_fits hfits]
      rw [hinsert] at hrecent₁
      obtain ⟨res₂, s₂, hspend, hrecent₂⟩ :=
        applyBlock_spend hrecent₁ (AList.lookup_insert c.map)
      refine ⟨s₂, _, (hreached.applied hcreate).applied hspend, hrecent₂, hbudget, ?_, ?_⟩
      · exact RecentUtxoCache.keys_erase_insert hkeys _ _
      · rw [List.length_append, List.length_singleton, horder]

/-- The cache holds boundedly many keys, under all sequences of calls and under those of
`apply_block` alike, if and only if its budget has no room for a single entry. -/
theorem heldKeys_bounded_iff (budgetBytes : Nat) :
    ((∃ bound, ∀ ops,
        ((RecentUtxoCache.new budgetBytes).performAll ops).heldKeys ≤ bound) ↔
      budgetBytes < cacheEntryCost) ∧
    ((∃ bound, ∀ s c, OpenedCached budgetBytes s → s.recent = some c → c.heldKeys ≤ bound) ↔
      budgetBytes < cacheEntryCost) := by
  have hunbounded : (∃ bound, ∀ s c, OpenedCached budgetBytes s → s.recent = some c →
      c.heldKeys ≤ bound) → budgetBytes < cacheEntryCost := by
    rintro ⟨bound, hbound⟩
    by_contra hroom
    obtain ⟨s, c, hreached, hrecent, -, -, horder⟩ := churned (Nat.not_lt.mp hroom) (bound + 1)
    have := hbound s c hreached hrecent
    rw [RecentUtxoCache.heldKeys, horder] at this
    omega
  -- The calls of `apply_block` are calls.
  have hcalls : (∃ bound, ∀ ops,
      ((RecentUtxoCache.new budgetBytes).performAll ops).heldKeys ≤ bound) →
      ∃ bound, ∀ s c, OpenedCached budgetBytes s → s.recent = some c → c.heldKeys ≤ bound := by
    rintro ⟨bound, hbound⟩
    refine ⟨bound, fun s c hreached hrecent => ?_⟩
    obtain ⟨ops, hops⟩ := hreached.performed
    obtain rfl := Option.some.inj (hrecent.symm.trans hops)
    exact hbound ops
  have hbounded : budgetBytes < cacheEntryCost → ∃ bound, ∀ ops,
      ((RecentUtxoCache.new budgetBytes).performAll ops).heldKeys ≤ bound :=
    fun hroom => ⟨0, fun ops => (RecentUtxoCache.heldKeys_of_no_room hroom ops).le⟩
  exact ⟨⟨fun h => hunbounded (hcalls h), hbounded⟩,
    ⟨hunbounded, fun hroom => hcalls (hbounded hroom)⟩⟩

/-- No function of the budget bounds the keys held after `apply_block` calls. -/
theorem heldKeys_unbounded :
    ¬∃ f : Nat → Nat, ∀ budgetBytes s c, OpenedCached budgetBytes s → s.recent = some c →
      c.heldKeys ≤ f budgetBytes := by
  rintro ⟨f, hf⟩
  obtain ⟨s, c, hreached, hrecent, -, -, horder⟩ := churned (le_refl cacheEntryCost)
    (f cacheEntryCost + 1)
  have := hf cacheEntryCost s c hreached hrecent
  rw [RecentUtxoCache.heldKeys, horder] at this
  omega

end Bidx
