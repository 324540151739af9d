import Bidx.Store.BlockEffect

/-!
# The live store is a stack of blocks

In live mode `apply_block` puts a block on top of the indexed chain and `disconnect_block`
takes the top one off again.  Either call can fail, and the process can be restarted
between any two.  The store does not know the blocks: it has one table, and an undo record
for each height.

Its database is nevertheless that of the blocks that are left, as if no other had ever been
applied (`performAll_eq_applyBlocks`), when no block creates an outpoint that exists.
-/

namespace Bidx

open KeyValue

/-! ## Operations -/

/-- A call of a live store, or the end of the process and the next start. -/
inductive StoreOp where
  | apply (order : IterOrder Key UtxoValue) (faults : RocksFaults) (rows : BlockRows)
  | disconnect (faults : RocksFaults)
  | reopen

/-- A live store, and the height of the last block its caller has applied. -/
structure LiveIndex where
  store : UtxoStore
  top : Nat

namespace LiveIndex

/-- A block is applied at the next height. -/
def apply (x : LiveIndex) (order : IterOrder Key UtxoValue) (faults : RocksFaults)
    (rows : BlockRows) : Except (Stop UtxoError) SpendResult × UtxoStore :=
  x.store.applyBlock order faults (UInt32.ofNat (x.top + 1)) rows.txs rows.inputs rows.outputs

/-- The last height is disconnected. -/
def disconnect (x : LiveIndex) (faults : RocksFaults) : Except (Stop UtxoError) Unit × UtxoStore :=
  x.store.disconnectBlock faults (UInt32.ofNat x.top)

/-- One operation. -/
def perform (x : LiveIndex) : StoreOp → LiveIndex
  | .apply order faults rows =>
      match x.apply order faults rows with
      | (.ok _, store) => ⟨store, x.top + 1⟩
      | (.error _, store) => ⟨store, x.top⟩
  | .disconnect faults =>
      match x.disconnect faults with
      | (.ok _, store) => ⟨store, x.top - 1⟩
      | (.error _, store) => ⟨store, x.top⟩
  | .reopen => ⟨.openLive x.store.db, x.top⟩

/-- One operation after the other. -/
def performAll (x : LiveIndex) (ops : List StoreOp) : LiveIndex := ops.foldl perform x

/-- Whether an operation succeeds. -/
def succeeds (x : LiveIndex) : StoreOp → Bool
  | .apply order faults rows => (x.apply order faults rows).1.isOk
  | .disconnect faults => (x.disconnect faults).1.isOk
  | .reopen => true

/-- What an operation leaves of some blocks, the top one last. -/
def leaves (x : LiveIndex) (blocks : List BlockRows) (op : StoreOp) : List BlockRows :=
  if x.succeeds op then
    match op with
    | .apply _ _ rows => blocks ++ [rows]
    | .disconnect _ => blocks.dropLast
    | .reopen => blocks
  else
    blocks

/-- The blocks that are left after some operations. -/
def blocksLeft (x : LiveIndex) (blocks : List BlockRows) : List StoreOp → List BlockRows
  | [] => blocks
  | op :: ops => (x.perform op).blocksLeft (x.leaves blocks op) ops

/-- No outpoint that exists is created. -/
def CreatesNew (x : LiveIndex) : StoreOp → Prop
  | .apply _ _ rows => ∀ k ∈ createdKeys rows.outputs, x.store.db.utxo k = none
  | .disconnect _ => True
  | .reopen => True

/-- Nor by any of the operations that succeed. -/
def AllCreateNew (x : LiveIndex) : List StoreOp → Prop
  | [] => True
  | op :: ops => (x.succeeds op → x.CreatesNew op) ∧ (x.perform op).AllCreateNew ops

end LiveIndex

/-- Applying blocks, whatever the iteration order of the pending map. -/
abbrev applyInOrder (s : UtxoStore) (height : Nat) (blocks : List BlockRows) : Option UtxoStore :=
  applyBlocks (fun _ => .stored _ _) s height blocks

/-! ## Calls that fail -/

section Failed

variable {db : Db} {undoEnabled : Bool} {faults : RocksFaults} {height : UInt32}
  {order : IterOrder Key UtxoValue} {s s' : UtxoStore} {rows : BlockRows}

/-- The cache of the input loop, whether it goes on or stops. -/
def cacheOf : Except Aborted InputLoop → Option RecentUtxoCache
  | .ok st => st.recent
  | .error aborted => aborted.recent

theorem cacheOf_recordSpend (inp : InputRow) (v : UtxoValue) (st : InputLoop) :
    cacheOf (recordSpend height inp v st) = st.recent := by
  unfold recordSpend
  split <;> rfl

theorem cacheOf_lookupDb (inp : InputRow) (st : InputLoop) :
    cacheOf (lookupDb db undoEnabled faults height inp st) = st.recent := by
  unfold lookupDb
  split
  · rfl
  · split
    · rw [cacheOf_recordSpend]
    · rfl

theorem cacheOf_resolveInput {st : InputLoop} (hrecent : st.recent = none) (inp : InputRow) :
    cacheOf (resolveInput db undoEnabled faults height st inp) = none := by
  have hmiss : removeRecent st.recent inp.key = (none, none) := by
    rw [hrecent]
    rfl
  unfold resolveInput
  split
  · exact hrecent
  · split
    · rw [cacheOf_recordSpend]
      exact hrecent
    · rw [hmiss]
      exact cacheOf_lookupDb _ _

/-- Without a cache there is none afterwards. -/
theorem cacheOf_resolveInputs {st : InputLoop} (hrecent : st.recent = none)
    (inputs : List InputRow) :
    cacheOf (resolveInputs db undoEnabled faults height inputs st) = none := by
  induction inputs generalizing st with
  | nil => exact hrecent
  | cons inp inputs ih =>
      have hstep : cacheOf (resolveInput db undoEnabled faults height st inp) = none :=
        cacheOf_resolveInput hrecent inp
      rw [resolveInputs]
      cases hround : resolveInput db undoEnabled faults height st inp with
      | ok st' =>
          rw [hround] at hstep
          exact ih hstep
      | error aborted =>
          rw [hround] at hstep
          exact hstep

/-- A call that fails leaves a store without a cache as it is. -/
theorem applyBlock_error_keeps (hrecent : s.recent = none) {stop : Stop UtxoError}
    {txs : List TxRow} {inputs : List InputRow} {outputs : List OutputRow}
    (h : s.applyBlock order faults height txs inputs outputs = (.error stop, s')) : s' = s := by
  have hcache : cacheOf (resolveInputs s.db s.undoEnabled faults height inputs
      (initialLoop s.recent height txs outputs)) = none := cacheOf_resolveInputs hrecent _
  have hrun := applyBlock_run order faults s height txs inputs outputs
  rw [h] at hrun
  have hsame : ∀ recent, recent = none → { s with recent } = s := by
    rintro recent rfl
    rw [← hrecent]
  cases hrun with
  | aborts hloop =>
      rw [hloop] at hcache
      exact hsame _ hcache
  | panics hloop =>
      rw [hloop] at hcache
      exact hsame _ (congrArg (Option.map _) hcache)
  | writeFails hloop =>
      rw [hloop] at hcache
      exact hsame _ (congrArg (Option.map _) hcache)

/-- A block that is accepted would be so in any order and without the faults. -/
theorem UtxoStore.Live.applyRows_stored (hlive : s.Live) {res : SpendResult}
    (h : s.applyBlock order faults height rows.txs rows.inputs rows.outputs = (.ok res, s')) :
    s.applyRows (.stored _ _) height rows = (.ok res, s') := by
  obtain ⟨st, fees, hloop, hfees, -, rfl, rfl⟩ := applyBlock_eq_ok h
  have hcache : cacheOf (resolveInputs s.db s.undoEnabled faults height rows.inputs
      (initialLoop s.recent height rows.txs rows.outputs)) = none :=
    cacheOf_resolveInputs hlive.recent _
  rw [hloop] at hcache
  have hrecent : st.recent = none := hcache
  have hbatch : s.db.write (blockBatch (.stored _ _) s.undoEnabled height rows.outputs st) =
      s.db.write (blockBatch order s.undoEnabled height rows.outputs st) := by
    have hutxo :
        write s.db.utxo (blockBatch (.stored _ _) s.undoEnabled height rows.outputs st).utxo =
          write s.db.utxo (blockBatch order s.undoEnabled height rows.outputs st).utxo := by
      funext k
      simp only [blockBatch, write_append, write_puts_iterOrder]
    rw [Db.write, Db.write, hutxo]
    rfl
  unfold UtxoStore.applyRows UtxoStore.applyBlock
  rw [resolveInputs_none_of_ok hloop]
  simp only [hfees, hrecent, hbatch]
  rfl

/-- A disconnect that is accepted would be so without the faults. -/
theorem disconnectBlock_none_of_ok {s s' : UtxoStore}
    (h : s.disconnectBlock faults height = (.ok (), s')) :
    s.disconnectBlock .none height = (.ok (), s') := by
  unfold UtxoStore.disconnectBlock at h ⊢
  split at h
  · cases h
  · split at h
    · cases h
    · split at h
      · cases h
      · split at h
        · cases h
        · rename_i hraw _ _ hdecode _
          simp only [RocksFaults.none]
          exact h

theorem disconnectBlock_error {stop : Stop UtxoError}
    (h : s.disconnectBlock faults height = (.error stop, s')) : s' = s := by
  unfold UtxoStore.disconnectBlock at h
  split at h
  · exact (Prod.mk.inj h).2.symm
  · split at h
    · exact (Prod.mk.inj h).2.symm
    · split at h
      · exact (Prod.mk.inj h).2.symm
      · split at h
        · exact (Prod.mk.inj h).2.symm
        · cases h

end Failed

/-! ## Runs -/

/-- One more block, new to the run before it. -/
theorem CreatesFresh.concat {orders : Nat → IterOrder Key UtxoValue} {s s' : UtxoStore}
    {height : Nat} {blocks : List BlockRows} {rows : BlockRows}
    (hfresh : CreatesFresh orders s height blocks)
    (happly : applyBlocks orders s height blocks = some s')
    (hnew : ∀ k ∈ createdKeys rows.outputs, s'.db.utxo k = none) :
    CreatesFresh orders s height (blocks ++ [rows]) := by
  intro before rows' after mid hsplit hmid
  rcases List.eq_nil_or_concat after with rfl | ⟨after, last, rfl⟩
  · obtain ⟨rfl, hlast⟩ := List.append_inj' hsplit rfl
    obtain rfl := (List.cons.inj hlast).1
    obtain rfl := Option.some.inj (happly.symm.trans hmid)
    exact hnew
  · rw [List.concat_eq_append, ← List.cons_append, ← List.append_assoc] at hsplit
    exact hfresh before rows' after mid (List.append_inj' hsplit rfl).1 hmid

/-- A live store on these blocks over a database that was indexed up to `height`. -/
structure StandsOnBlocks (db : Db) (height : Nat) (blocks : List BlockRows) (x : LiveIndex) :
    Prop where
  applied : applyInOrder (.openLive db) height blocks = some x.store
  fresh : CreatesFresh (fun _ => .stored _ _) (.openLive db) height blocks
  top : x.top = height + blocks.length

section Run

variable {db : Db} {height : Nat} {blocks : List BlockRows} {x : LiveIndex}

theorem StandsOnBlocks.live (h : StandsOnBlocks db height blocks x)
    (hfits : height + blocks.length < 2 ^ 32) : x.store.Live :=
  (applyBlocks_frame (UtxoStore.live_openLive db) hfits h.applied).1

theorem StandsOnBlocks.start (db : Db) (height : Nat) :
    StandsOnBlocks db height [] ⟨.openLive db, height⟩ where
  applied := rfl
  fresh := CreatesFresh.nil
  top := rfl

/-- A block on top. -/
theorem StandsOnBlocks.apply (h : StandsOnBlocks db height blocks x)
    (hfits : height + blocks.length < 2 ^ 32) {order : IterOrder Key UtxoValue}
    {faults : RocksFaults} {rows : BlockRows} {res : SpendResult} {store : UtxoStore}
    (happly : x.apply order faults rows = (.ok res, store))
    (hnew : ∀ k ∈ createdKeys rows.outputs, x.store.db.utxo k = none) :
    StandsOnBlocks db height (blocks ++ [rows]) ⟨store, x.top + 1⟩ where
  applied := by
    have hrows := (h.live hfits).applyRows_stored happly
    rw [h.top] at hrows
    have hbefore : applyBlocks _ (.openLive db) height blocks = some x.store := h.applied
    rw [applyInOrder, applyBlocks_append, hbefore, Option.bind_some, applyBlocks, hrows]
    rfl
  fresh := h.fresh.concat h.applied hnew
  top := by
    rw [h.top, List.length_append, List.length_singleton, Nat.add_assoc]

/-- The top block off again: the undo record of its height, which no block below has, is
gone, and with it the last trace of the block. -/
theorem StandsOnBlocks.disconnect {rows : BlockRows}
    (h : StandsOnBlocks db height (blocks ++ [rows]) x)
    (hfits : height + blocks.length + 1 < 2 ^ 32)
    (hrecords : ∀ y : UInt32, height ≤ y.toNat → db.undo y = none) {faults : RocksFaults}
    {store : UtxoStore} (hdisconnect : x.disconnect faults = (.ok (), store)) :
    StandsOnBlocks db height blocks ⟨store, x.top - 1⟩ := by
  have htop : x.top = height + blocks.length + 1 := by
    rw [h.top, List.length_append, List.length_singleton, Nat.add_assoc]
  obtain ⟨below, res, hbelow, hrows⟩ := applyBlocks_snoc h.applied
  obtain ⟨hlive, -, hother⟩ := applyBlocks_frame (UtxoStore.live_openLive db) (by omega) hbelow
  obtain ⟨hlive', htip, -, hframe⟩ := applyRows_frame hlive hrows
  have hnew := h.fresh blocks rows [] below rfl hbelow
  have hback := disconnectBlock_applyRows hlive hrows hnew rfl rfl
  have hnone : below.db.undo (UInt32.ofNat (height + blocks.length + 1)) = none := by
    have hnat : (UInt32.ofNat (height + blocks.length + 1)).toNat = height + blocks.length + 1 :=
      toNat_ofNat_height hfits
    rw [hother _ (by omega)]
    exact hrecords _ (by omega)
  have hundo : Function.update x.store.db.undo (UInt32.ofNat (height + blocks.length + 1)) none =
      below.db.undo := by
    funext y
    by_cases hy : y = UInt32.ofNat (height + blocks.length + 1)
    · rw [hy, Function.update_self, hnone]
    · rw [Function.update_of_ne hy, hframe y hy]
  have hstore : store = below := by
    have hdone := disconnectBlock_none_of_ok hdisconnect
    rw [htop, hback] at hdone
    rw [← (Prod.mk.inj hdone).2, ← hlive.openLive_db,
      ← (UtxoStore.Live.rolledBack _ _ hlive').openLive_db, UtxoStore.rolledBack, hundo, htip]
    rfl
  exact {
    applied := by rw [applyInOrder, hbelow, hstore]
    fresh := h.fresh.of_append
    top := by
      change x.top - 1 = _
      omega }

/-- Below the blocks there is nothing to disconnect. -/
theorem StandsOnBlocks.disconnect_nil (h : StandsOnBlocks db height [] x)
    (hfits : height < 2 ^ 32) (hrecords : ∀ y : UInt32, height ≤ y.toNat → db.undo y = none)
    (faults : RocksFaults) : ∃ stop, x.disconnect faults = (.error stop, x.store) := by
  have hnat : (UInt32.ofNat height).toNat = height := toNat_ofNat_height hfits
  have hstore : x.store = .openLive db := (Option.some.inj h.applied).symm
  have hnone : x.store.db.undo (UInt32.ofNat x.top) = none := by
    rw [hstore, h.top]
    exact hrecords _ (by rw [List.length_nil, Nat.add_zero, hnat])
  unfold LiveIndex.disconnect UtxoStore.disconnectBlock
  split
  · exact ⟨_, rfl⟩
  · rw [hnone]
    exact ⟨_, rfl⟩

/-- One operation. -/
theorem StandsOnBlocks.perform (h : StandsOnBlocks db height blocks x)
    (hfits : height + blocks.length + 1 < 2 ^ 32)
    (hrecords : ∀ y : UInt32, height ≤ y.toNat → db.undo y = none) (op : StoreOp)
    (hnew : x.succeeds op → x.CreatesNew op) :
    StandsOnBlocks db height (x.leaves blocks op) (x.perform op) := by
  have hlive := h.live (by omega)
  cases op with
  | apply order faults rows =>
      rcases happly : x.apply order faults rows with ⟨stop | res, store⟩
      · obtain rfl := applyBlock_error_keeps hlive.recent happly
        have hfails : x.succeeds (.apply order faults rows) = false := by
          simp only [LiveIndex.succeeds, happly]
          rfl
        rw [LiveIndex.leaves, hfails, if_neg Bool.false_ne_true]
        simp only [LiveIndex.perform, happly]
        exact h
      · have hsucceeds : x.succeeds (.apply order faults rows) := by
          simp only [LiveIndex.succeeds, happly]
          rfl
        rw [LiveIndex.leaves, if_pos hsucceeds]
        simp only [LiveIndex.perform, happly]
        exact h.apply (by omega) happly (hnew hsucceeds)
  | disconnect faults =>
      rcases hdisconnect : x.disconnect faults with ⟨stop | _, store⟩
      · obtain rfl := disconnectBlock_error hdisconnect
        have hfails : x.succeeds (.disconnect faults) = false := by
          simp only [LiveIndex.succeeds, hdisconnect]
          rfl
        rw [LiveIndex.leaves, hfails, if_neg Bool.false_ne_true]
        simp only [LiveIndex.perform, hdisconnect]
        exact h
      · have hsucceeds : x.succeeds (.disconnect faults) := by
          simp only [LiveIndex.succeeds, hdisconnect]
          rfl
        rw [LiveIndex.leaves, if_pos hsucceeds]
        simp only [LiveIndex.perform, hdisconnect]
        rcases List.eq_nil_or_concat blocks with rfl | ⟨init, last, rfl⟩
        · obtain ⟨stop, hstop⟩ := h.disconnect_nil (by omega) hrecords faults
          rw [hdisconnect] at hstop
          cases hstop
        · rw [List.concat_eq_append] at h ⊢
          rw [List.concat_eq_append, List.length_append, List.length_singleton] at hfits
          rw [List.dropLast_concat]
          exact h.disconnect (by omega) hrecords hdisconnect
  | reopen =>
      have hsame : x.perform .reopen = x := by
        rw [LiveIndex.perform, hlive.openLive_db]
      rw [hsame]
      exact h

theorem length_leaves_le (x : LiveIndex) (blocks : List BlockRows) (op : StoreOp) :
    (x.leaves blocks op).length ≤ blocks.length + 1 := by
  unfold LiveIndex.leaves
  split
  · cases op with
    | apply order faults rows => simp
    | disconnect faults =>
        rw [List.length_dropLast]
        omega
    | reopen => exact Nat.le_succ _
  · exact Nat.le_succ _

/-- Any number of operations. -/
theorem StandsOnBlocks.performAll (h : StandsOnBlocks db height blocks x) {ops : List StoreOp}
    (hfits : height + blocks.length + ops.length < 2 ^ 32)
    (hrecords : ∀ y : UInt32, height ≤ y.toNat → db.undo y = none) (hnew : x.AllCreateNew ops) :
    StandsOnBlocks db height (x.blocksLeft blocks ops) (x.performAll ops) := by
  induction ops generalizing x blocks with
  | nil => exact h
  | cons op ops ih =>
      rw [List.length_cons] at hfits
      have hlength := length_leaves_le x blocks op
      exact ih (h.perform (by omega) hrecords op hnew.1) (by omega) hnew.2

end Run

end Bidx
