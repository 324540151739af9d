import Mathlib.Data.List.Induction
import Bidx.Store.ApplySpec

/-!
# Disconnecting undoes applying

`disconnect_block` restores the default column family byte for byte, provided
the block created no outpoint that was already there.  One block first: every
outpoint is one the block created and left (deleted again), one it read from the
database (put back from the undo record), or one it never changed.  Runs of
blocks follow by induction on the number of blocks disconnected.
-/

namespace Bidx

open KeyValue

/-! ## One block -/

/-- What a table keeps of itself through a block and its undo: everything but the
outpoints the block creates and does not spend. -/
def keptThrough (inputs : List InputRow) (outputs : List OutputRow)
    (utxo : Key → Option (List UInt8)) : Key → Option (List UInt8) := fun k =>
  if k ∈ createdKeys outputs ∧ k ∉ spentKeys inputs then none else utxo k

/-- The table survives exactly when every outpoint that is created over an entry is
spent in the same block. -/
theorem keptThrough_eq_self {inputs : List InputRow} {outputs : List OutputRow}
    {utxo : Key → Option (List UInt8)} :
    keptThrough inputs outputs utxo = utxo ↔
      ∀ k ∈ createdKeys outputs, utxo k ≠ none → k ∈ spentKeys inputs := by
  constructor
  · intro h k hcreated hpresent
    by_contra hunspent
    have hk := congrFun h k
    rw [keptThrough, if_pos ⟨hcreated, hunspent⟩] at hk
    exact hpresent hk.symm
  · intro h
    funext k
    rw [keptThrough]
    split
    · rename_i hleft
      by_contra habsent
      exact hleft.2 (h k hleft.1 fun hnone => habsent hnone.symm)
    · rfl

/-- Playing a block's undo record on the table the block left, outpoint by outpoint. -/
theorem DirectLoop.disconnect_utxo {db : Db} {height : UInt32} {outputs : List OutputRow}
    {inputs : List InputRow} {reads : List (Key × UtxoValue)} {st : InputLoop}
    (inv : DirectLoop db true (seedPending height outputs) (spentKeys inputs) reads st)
    (order : IterOrder Key UtxoValue) :
    write (db.write (blockBatch order true height outputs st)).utxo
      (disconnectBatch height (blockUndo outputs st)).utxo =
        keptThrough inputs outputs db.utxo := by
  have hundo : true = true := rfl
  -- What the database reads put back is a function of the outpoint alone.
  have hputs : (reads.map fun e : Key × UtxoValue => Op.put e.1 e.2.encode) =
      (reads.map Prod.fst).map fun k => Op.put k ((db.utxo k).getD []) := by
    rw [List.map_map]
    apply List.map_congr_left
    intro e he
    obtain ⟨raw, hraw, hdec⟩ := Option.bind_eq_some_iff.mp (inv.reads_value e he)
    simp only [Function.comp_apply, hraw, Option.getD_some, UtxoValue.encode_of_decode hdec]
  have hreads : ∀ k ∈ reads.map Prod.fst, ∃ raw, db.utxo k = some raw := by
    intro k hk
    obtain ⟨e, he, rfl⟩ := List.mem_map.mp hk
    obtain ⟨raw, hraw, -⟩ := Option.bind_eq_some_iff.mp (inv.reads_value e he)
    exact ⟨raw, hraw⟩
  funext k
  change write _ ((st.undoSpent.map fun e => Op.put e.1 e.2.encode) ++
    ((createdKeys outputs).filter fun k => decide (k ∉ st.sameBlock)).map Op.delete) k = _
  rw [inv.undoSpent hundo, hputs, write_append, write_deletes, write_puts_of_fun, inv.utxo_after,
    keptThrough]
  simp only [List.mem_filter, decide_eq_true_eq, inv.sameBlock hundo]
  -- What the database reads put back is what was there.
  have hback : (if k ∈ reads.map Prod.fst then some ((db.utxo k).getD []) else
      if k ∈ reads.map Prod.fst then none else db.utxo k) = db.utxo k := by
    by_cases hread : k ∈ reads.map Prod.fst
    · obtain ⟨raw, hraw⟩ := hreads k hread
      rw [if_pos hread, hraw, Option.getD_some]
    · rw [if_neg hread, if_neg hread]
  by_cases hcreated : k ∈ createdKeys outputs
  · have hseeded : (seedPending height outputs).lookup k ≠ none := by
      rw [ne_eq, lookup_seedPending_eq_none, not_not]
      exact hcreated
    by_cases hspent : k ∈ spentKeys inputs
    · -- The first spend took the block's own output, a later one the old entry.
      simpa [hcreated, hspent, hseeded] using hback
    · simp [hcreated, hspent]
  · have hseeded : (seedPending height outputs).lookup k = none :=
      lookup_seedPending_eq_none.mpr hcreated
    simpa [hcreated, hseeded] using hback

/-- A call that finds an undo record it can decode plays it. -/
theorem disconnectBlock_of_undo {s : UtxoStore} {height : UInt32} {undo : BlockUndo}
    (hraw : s.db.undo height = some undo.encode) (hs : undo.spent.length < 2 ^ 64)
    (hc : undo.created.length < 2 ^ 64) :
    s.disconnectBlock .none height =
      (.ok (), { s with db := s.db.write (disconnectBatch height undo) }) := by
  have hdec : BlockUndo.decode undo.encode = some undo := by
    rw [← List.append_nil undo.encode]
    exact BlockUndo.decode_encode undo hs hc []
  simp only [UtxoStore.disconnectBlock, RocksFaults.none, hraw, hdec, Bool.false_eq_true,
    if_false]

/-! ## Block arguments -/

/-- The row slices of one `apply_block` call.  Their lengths are machine words,
as those of any Rust slice. -/
structure BlockRows where
  txs : List TxRow
  inputs : List InputRow
  outputs : List OutputRow
  inputs_lt : inputs.length < 2 ^ 64
  outputs_lt : outputs.length < 2 ^ 64

/-- `apply_block` on packaged rows. -/
def UtxoStore.applyRows (order : IterOrder Key UtxoValue) (s : UtxoStore) (height : UInt32)
    (rows : BlockRows) : Except (Stop UtxoError) SpendResult × UtxoStore :=
  s.applyBlock order .none height rows.txs rows.inputs rows.outputs

/-- A live store: undo records on, no cache. -/
structure UtxoStore.Live (s : UtxoStore) : Prop where
  undoEnabled : s.undoEnabled = true
  recent : s.recent = none

theorem UtxoStore.live_openLive (db : Db) : (UtxoStore.openLive db).Live := ⟨rfl, rfl⟩

theorem UtxoStore.Live.openLive_db {s : UtxoStore} (h : s.Live) :
    UtxoStore.openLive s.db = s := by
  cases s
  obtain ⟨rfl, rfl⟩ := h
  rfl

/-- A store after a disconnect that brought its table back to `utxo` and consumed
the undo record of `height`. -/
def UtxoStore.rolledBack (t : UtxoStore) (height : UInt32) (utxo : Key → Option (List UInt8)) :
    UtxoStore :=
  { t with db := ⟨utxo, Function.update t.db.undo height none, t.db.tip⟩ }

section RolledBack

variable (t : UtxoStore) (height : UInt32) (utxo : Key → Option (List UInt8))

@[simp] theorem UtxoStore.rolledBack_utxo : (t.rolledBack height utxo).db.utxo = utxo := rfl

@[simp] theorem UtxoStore.rolledBack_undo :
    (t.rolledBack height utxo).db.undo = Function.update t.db.undo height none := rfl

@[simp] theorem UtxoStore.tip_rolledBack : (t.rolledBack height utxo).tip = t.tip := rfl

theorem UtxoStore.Live.rolledBack {t : UtxoStore} (h : t.Live) :
    (t.rolledBack height utxo).Live := ⟨h.undoEnabled, h.recent⟩

end RolledBack

/-- A live block's undo record, as `apply_block` wrote it, and what playing it on
any store that still holds the block's table and record does. -/
theorem disconnectBlock_kept {order : IterOrder Key UtxoValue} {s s' t : UtxoStore}
    {height : UInt32} {rows : BlockRows} {res : SpendResult} (hlive : s.Live)
    (happly : s.applyRows order height rows = (.ok res, s'))
    (hutxo : t.db.utxo = s'.db.utxo) (hundo : t.db.undo height = s'.db.undo height) :
    t.disconnectBlock .none height =
      (.ok (), t.rolledBack height (keptThrough rows.inputs rows.outputs s.db.utxo)) := by
  obtain ⟨st, reads, -, inv, -, -, -, rfl⟩ := applyBlock_direct hlive.recent happly
  rw [hlive.undoEnabled] at inv hutxo hundo
  have hrecord : t.db.undo height = some (blockUndo rows.outputs st).encode := by
    rw [hundo, undo_after, if_pos rfl, Function.update_self]
  have hspent : (blockUndo rows.outputs st).spent.length < 2 ^ 64 := by
    change st.undoSpent.length < 2 ^ 64
    rw [inv.undoSpent rfl]
    exact (inv.reads_length.trans (length_spentKeys_le _)).trans_lt rows.inputs_lt
  have hcreated : (blockUndo rows.outputs st).created.length < 2 ^ 64 := by
    refine (List.length_filter_le _ _).trans_lt ?_
    rw [List.length_map]
    exact rows.outputs_lt
  rw [disconnectBlock_of_undo hrecord hspent hcreated, Db.write, hutxo,
    inv.disconnect_utxo order]
  rfl

/-- A block that creates no outpoint over an entry is undone completely. -/
theorem disconnectBlock_applyRows {order : IterOrder Key UtxoValue} {s s' t : UtxoStore}
    {height : UInt32} {rows : BlockRows} {res : SpendResult} (hlive : s.Live)
    (happly : s.applyRows order height rows = (.ok res, s'))
    (hfresh : ∀ k ∈ createdKeys rows.outputs, s.db.utxo k = none)
    (hutxo : t.db.utxo = s'.db.utxo) (hundo : t.db.undo height = s'.db.undo height) :
    t.disconnectBlock .none height = (.ok (), t.rolledBack height s.db.utxo) := by
  have hkept : keptThrough rows.inputs rows.outputs s.db.utxo = s.db.utxo :=
    keptThrough_eq_self.mpr fun k hcreated hpresent => absurd (hfresh k hcreated) hpresent
  rw [disconnectBlock_kept hlive happly hutxo hundo, hkept]

/-- Applying a block and disconnecting it succeeds, and it restores the default column
family if and only if the block spends every outpoint it created over an entry.  The
entry of an outpoint it leaves unspent is overwritten by the block and deleted by its
undo record, which does not hold it. -/
theorem disconnectBlock_restores_iff (order : IterOrder Key UtxoValue) (s s' : UtxoStore)
    (hlive : s.Live) (height : UInt32) (rows : BlockRows) (res : SpendResult)
    (happly : s.applyRows order height rows = (.ok res, s')) :
    ∃ t, s'.disconnectBlock .none height = (.ok (), t) ∧
      (t.db.utxo = s.db.utxo ↔
        ∀ k ∈ createdKeys rows.outputs, s.db.utxo k ≠ none → k ∈ spentKeys rows.inputs) :=
  ⟨_, disconnectBlock_kept hlive happly rfl rfl, keptThrough_eq_self⟩

/-- A block that creates the one outpoint of `sampleDb` a second time. -/
def sampleDuplicate : BlockRows where
  txs := [sampleTx 0 1]
  inputs := []
  outputs := [sampleOutput 0 1 9]
  inputs_lt := by decide
  outputs_lt := by decide

theorem disconnectBlock_restores_iff_sample :
    ∃ res s', (UtxoStore.openLive sampleDb).applyRows (.stored _ _) 7 sampleDuplicate =
        (.ok res, s') ∧
      ∃ t, s'.disconnectBlock .none 7 = (.ok (), t) ∧
        (t.db.utxo = sampleDb.utxo ↔ ∀ k ∈ createdKeys sampleDuplicate.outputs,
          sampleDb.utxo k ≠ none → k ∈ spentKeys sampleDuplicate.inputs) :=
  ⟨_, _, rfl, disconnectBlock_restores_iff (.stored _ _) (.openLive sampleDb) _
    (UtxoStore.live_openLive sampleDb) 7 sampleDuplicate _ rfl⟩

/-- The overwritten entry does not come back. -/
theorem disconnectBlock_loses_overwritten :
    ∃ res s' t, (UtxoStore.openLive sampleDb).applyRows (.stored _ _) 7 sampleDuplicate =
        (.ok res, s') ∧
      s'.disconnectBlock .none 7 = (.ok (), t) ∧
      makeKey (wordBytes 32 1) 0 ∈ createdKeys sampleDuplicate.outputs ∧
      sampleDb.utxo (makeKey (wordBytes 32 1) 0) ≠ none ∧
      t.db.utxo (makeKey (wordBytes 32 1) 0) = none := by
  have hruns : ∃ res s', (UtxoStore.openLive sampleDb).applyRows (.stored _ _) 7
      sampleDuplicate = (.ok res, s') := ⟨_, _, rfl⟩
  obtain ⟨res, s', happly⟩ := hruns
  have hlive := UtxoStore.live_openLive sampleDb
  refine ⟨res, s', _, happly, disconnectBlock_kept hlive happly rfl rfl, ?_, ?_, ?_⟩
  · decide +kernel
  · decide +kernel
  · show keptThrough sampleDuplicate.inputs sampleDuplicate.outputs sampleDb.utxo
      (makeKey (wordBytes 32 1) 0) = none
    decide +kernel

/-- What a successful call leaves alone: the mode, the cache, the tip and every
other height's undo record; its own record is there afterwards. -/
theorem applyRows_frame {order : IterOrder Key UtxoValue} {s s' : UtxoStore} {height : UInt32}
    {rows : BlockRows} {res : SpendResult} (hlive : s.Live)
    (happly : s.applyRows order height rows = (.ok res, s')) :
    s'.Live ∧ s'.db.tip = s.db.tip ∧ s'.db.undo height ≠ none ∧
      ∀ x, x ≠ height → s'.db.undo x = s.db.undo x := by
  obtain ⟨st, reads, -, inv, -, -, -, rfl⟩ := applyBlock_direct hlive.recent happly
  rw [hlive.undoEnabled]
  refine ⟨⟨rfl, hlive.recent⟩, rfl, ?_, ?_⟩
  · simp [undo_after]
  · intro x hx
    simp [undo_after, hx]

/-! ## Runs of blocks -/

/-- Apply blocks at the heights after `height`, one by one; `none` when a call
fails.  `orders` gives the iteration order of the pending map in each call. -/
def applyBlocks (orders : Nat → IterOrder Key UtxoValue) :
    UtxoStore → Nat → List BlockRows → Option UtxoStore
  | s, _, [] => some s
  | s, height, rows :: blocks =>
      match s.applyRows (orders (height + 1)) (UInt32.ofNat (height + 1)) rows with
      | (.ok _, s') => applyBlocks orders s' (height + 1) blocks
      | (.error _, _) => none

/-- Disconnect `count` blocks from height `top` downwards, stopping at the first
failure. -/
def disconnectBlocks : UtxoStore → Nat → Nat → Except (Stop UtxoError) Unit × UtxoStore
  | s, _, 0 => (.ok (), s)
  | s, top, count + 1 =>
      match s.disconnectBlock .none (UInt32.ofNat top) with
      | (.ok _, s') => disconnectBlocks s' (top - 1) count
      | failed => failed

/-- No block of the run creates an outpoint that is present just before it. -/
def CreatesFresh (orders : Nat → IterOrder Key UtxoValue) (s : UtxoStore) (height : Nat)
    (blocks : List BlockRows) : Prop :=
  ∀ before rows after mid, blocks = before ++ rows :: after →
    applyBlocks orders s height before = some mid →
    ∀ k ∈ createdKeys rows.outputs, mid.db.utxo k = none

theorem applyBlocks_append (orders : Nat → IterOrder Key UtxoValue) (s : UtxoStore)
    (height : Nat) (blocks blocks' : List BlockRows) :
    applyBlocks orders s height (blocks ++ blocks') =
      (applyBlocks orders s height blocks).bind fun mid =>
        applyBlocks orders mid (height + blocks.length) blocks' := by
  induction blocks generalizing s height with
  | nil => rfl
  | cons rows blocks ih =>
      rw [List.cons_append, applyBlocks, applyBlocks]
      split
      · rw [ih, List.length_cons, Nat.add_assoc, Nat.add_comm 1]
      · rfl

theorem applyBlocks_snoc {orders : Nat → IterOrder Key UtxoValue} {s s' : UtxoStore}
    {height : Nat} {blocks : List BlockRows} {rows : BlockRows}
    (h : applyBlocks orders s height (blocks ++ [rows]) = some s') :
    ∃ mid res, applyBlocks orders s height blocks = some mid ∧
      mid.applyRows (orders (height + blocks.length + 1))
        (UInt32.ofNat (height + blocks.length + 1)) rows = (.ok res, s') := by
  rw [applyBlocks_append] at h
  obtain ⟨mid, hmid, hrows⟩ := Option.bind_eq_some_iff.mp h
  rw [applyBlocks] at hrows
  split at hrows
  · rename_i res s₁ heq
    rw [applyBlocks, Option.some.injEq] at hrows
    subst hrows
    exact ⟨mid, res, hmid, heq⟩
  · contradiction

theorem CreatesFresh.nil {orders : Nat → IterOrder Key UtxoValue} {s : UtxoStore}
    {height : Nat} : CreatesFresh orders s height [] := by
  intro before rows after mid hsplit
  simp at hsplit

theorem CreatesFresh.cons {orders : Nat → IterOrder Key UtxoValue} {s : UtxoStore}
    {height : Nat} {rows : BlockRows} {blocks : List BlockRows}
    (hnow : ∀ k ∈ createdKeys rows.outputs, s.db.utxo k = none)
    (hlater : ∀ mid, applyBlocks orders s height [rows] = some mid →
      CreatesFresh orders mid (height + 1) blocks) :
    CreatesFresh orders s height (rows :: blocks) := by
  intro before rows' after mid hsplit hmid
  cases before with
  | nil =>
      obtain ⟨rfl, -⟩ := List.cons.inj hsplit
      obtain rfl := Option.some.inj hmid
      exact hnow
  | cons first before =>
      obtain ⟨rfl, hrest⟩ := List.cons.inj hsplit
      rw [← List.singleton_append, applyBlocks_append] at hmid
      obtain ⟨mid₁, hmid₁, hbefore⟩ := Option.bind_eq_some_iff.mp hmid
      exact hlater mid₁ hmid₁ before rows' after mid hrest hbefore

theorem CreatesFresh.of_append {orders : Nat → IterOrder Key UtxoValue} {s : UtxoStore}
    {height : Nat} {blocks blocks' : List BlockRows}
    (h : CreatesFresh orders s height (blocks ++ blocks')) :
    CreatesFresh orders s height blocks := by
  intro before rows after mid hsplit
  apply h before rows (after ++ blocks') mid
  rw [hsplit, List.append_assoc, List.cons_append]

/-- Heights fit `u32`, so the key of an undo record is its height. -/
theorem eq_ofNat_iff {x : UInt32} {n : Nat} (hn : n < 2 ^ 32) :
    x = UInt32.ofNat n ↔ x.toNat = n := by
  rw [eq_comm, UInt32.ofNat_eq_iff_mod_eq_toNat, Nat.mod_eq_of_lt hn, eq_comm]

theorem toNat_ofNat_height {n : Nat} (hn : n < 2 ^ 32) : (UInt32.ofNat n).toNat = n :=
  (eq_ofNat_iff hn).mp rfl

/-- A run stays live and changes undo records at its own heights only, each of
which has one afterwards. -/
theorem applyBlocks_frame {orders : Nat → IterOrder Key UtxoValue} {s s' : UtxoStore}
    {height : Nat} {blocks : List BlockRows} (hlive : s.Live)
    (hfits : height + blocks.length < 2 ^ 32)
    (h : applyBlocks orders s height blocks = some s') :
    s'.Live ∧
      (∀ i, height < i → i ≤ height + blocks.length → s'.db.undo (UInt32.ofNat i) ≠ none) ∧
      ∀ x : UInt32, (x.toNat ≤ height ∨ height + blocks.length < x.toNat) →
        s'.db.undo x = s.db.undo x := by
  induction blocks using List.reverseRecOn generalizing s' with
  | nil =>
      obtain rfl := Option.some.inj h
      refine ⟨hlive, ?_, fun _ _ => rfl⟩
      intro i hi hle
      simp only [List.length_nil] at hle
      omega
  | append_singleton blocks rows ih =>
      rw [List.length_append, List.length_singleton] at hfits ⊢
      obtain ⟨mid, res, hmid, hrows⟩ := applyBlocks_snoc h
      obtain ⟨hliveMid, hpresent, hother⟩ := ih (by omega) hmid
      obtain ⟨hlive', -, hown, hframe⟩ := applyRows_frame hliveMid hrows
      have htop : ∀ x : UInt32, x = UInt32.ofNat (height + blocks.length + 1) ↔
          x.toNat = height + blocks.length + 1 := fun _ => eq_ofNat_iff (by omega)
      refine ⟨hlive', ?_, ?_⟩
      · intro i hlt hle
        by_cases hi : i = height + blocks.length + 1
        · rw [hi]
          exact hown
        · have hne : UInt32.ofNat i ≠ UInt32.ofNat (height + blocks.length + 1) := by
            rw [ne_eq, htop, toNat_ofNat_height (by omega)]
            exact hi
          rw [hframe _ hne]
          exact hpresent i hlt (by omega)
      · intro x hx
        have hne : x ≠ UInt32.ofNat (height + blocks.length + 1) := by
          rw [ne_eq, htop]
          omega
        rw [hframe x hne]
        exact hother x (by omega)

/-- Disconnecting the last `count` blocks of a run, from any store that still
holds the run's table and its undo records. -/
theorem disconnectBlocks_run {orders : Nat → IterOrder Key UtxoValue} {s s' t : UtxoStore}
    {height : Nat} {blocks : List BlockRows} (hlive : s.Live)
    (hfits : height + blocks.length < 2 ^ 32)
    (hfresh : CreatesFresh orders s height blocks)
    (happly : applyBlocks orders s height blocks = some s')
    (hutxo : t.db.utxo = s'.db.utxo)
    (hundo : ∀ i, height < i → i ≤ height + blocks.length →
      t.db.undo (UInt32.ofNat i) = s'.db.undo (UInt32.ofNat i))
    {count : Nat} (hcount : count ≤ blocks.length) :
    ∃ mid t', applyBlocks orders s height (blocks.take (blocks.length - count)) = some mid ∧
      disconnectBlocks t (height + blocks.length) count = (.ok (), t') ∧
      t'.db.utxo = mid.db.utxo ∧
      ∀ x : UInt32, t'.db.undo x =
        if height + (blocks.length - count) < x.toNat ∧ x.toNat ≤ height + blocks.length then none
        else t.db.undo x := by
  induction blocks using List.reverseRecOn generalizing s' t count with
  | nil =>
      obtain rfl : count = 0 := by simpa using hcount
      refine ⟨s', t, by simpa using happly, rfl, hutxo, ?_⟩
      intro x
      rw [if_neg (by simp only [List.length_nil]; omega)]
  | append_singleton blocks rows ih =>
      cases count with
      | zero =>
          refine ⟨s', t, ?_, rfl, hutxo, ?_⟩
          · rw [Nat.sub_zero, List.take_length]
            exact happly
          · intro x
            rw [if_neg (by omega)]
      | succ count =>
          have hlen : (blocks ++ [rows]).length = blocks.length + 1 := by simp
          rw [hlen] at hfits hundo hcount ⊢
          obtain ⟨before, res, hbefore, hrows⟩ := applyBlocks_snoc happly
          obtain ⟨hliveBefore, -, hotherBefore⟩ :=
            applyBlocks_frame hlive (by omega : height + blocks.length < 2 ^ 32) hbefore
          obtain ⟨-, -, -, hframe⟩ := applyRows_frame hliveBefore hrows
          -- The top block is undone first ...
          have htopDisc := disconnectBlock_applyRows hliveBefore hrows
            (hfresh blocks rows [] before rfl hbefore) hutxo
            (hundo (height + blocks.length + 1) (by omega) (by omega))
          have htop : ∀ x : UInt32, x = UInt32.ofNat (height + blocks.length + 1) ↔
              x.toNat = height + blocks.length + 1 := fun _ => eq_ofNat_iff (by omega)
          -- ... and leaves a store the induction hypothesis applies to.
          have hundoBelow : ∀ i, height < i → i ≤ height + blocks.length →
              (t.rolledBack (UInt32.ofNat (height + blocks.length + 1)) before.db.utxo).db.undo
                (UInt32.ofNat i) = before.db.undo (UInt32.ofNat i) := by
            intro i hlt hle
            have hine : UInt32.ofNat i ≠ UInt32.ofNat (height + blocks.length + 1) := by
              rw [ne_eq, htop, toNat_ofNat_height (by omega)]
              omega
            rw [UtxoStore.rolledBack_undo, Function.update_of_ne hine, hundo i hlt (by omega),
              hframe _ hine]
          obtain ⟨mid, t', hmid, hdisc, hmidUtxo, hmidUndo⟩ := ih (by omega)
            hfresh.of_append hbefore (UtxoStore.rolledBack_utxo _ _ _) hundoBelow
            (by omega : count ≤ blocks.length)
          refine ⟨mid, t', ?_, ?_, hmidUtxo, ?_⟩
          · rw [Nat.add_sub_add_right, List.take_append_of_le_length (by omega)]
            exact hmid
          · rw [disconnectBlocks, ← Nat.add_assoc, htopDisc]
            exact hdisc
          · intro x
            rw [hmidUndo x, UtxoStore.rolledBack_undo]
            by_cases hx : x.toNat = height + blocks.length + 1
            · rw [if_neg (by omega), if_pos (by omega), (htop x).mpr hx, Function.update_self]
            · rw [Function.update_of_ne (mt (htop x).mp hx)]
              split_ifs <;> first | rfl | omega

/-- Disconnecting the last `count` of the blocks applied to a live store succeeds
and restores the default column family as it was before them.  Undo records are
left for the remaining applied heights and, untouched, for heights outside the
run. -/
theorem disconnectBlocks_restores (orders : Nat → IterOrder Key UtxoValue) (db : Db)
    (height : Nat) (blocks : List BlockRows) (s' : UtxoStore)
    (hfits : height + blocks.length < 2 ^ 32)
    (happly : applyBlocks orders (.openLive db) height blocks = some s')
    (hfresh : CreatesFresh orders (.openLive db) height blocks)
    (count : Nat) (hcount : count ≤ blocks.length) :
    ∃ mid t', applyBlocks orders (.openLive db) height
        (blocks.take (blocks.length - count)) = some mid ∧
      disconnectBlocks s' (height + blocks.length) count = (.ok (), t') ∧
      t'.db.utxo = mid.db.utxo ∧
      (∀ i, height < i → i ≤ height + (blocks.length - count) →
        t'.db.undo (UInt32.ofNat i) ≠ none) ∧
      (∀ i, height + (blocks.length - count) < i → i ≤ height + blocks.length →
        t'.db.undo (UInt32.ofNat i) = none) ∧
      ∀ x : UInt32, (x.toNat ≤ height ∨ height + blocks.length < x.toNat) →
        t'.db.undo x = db.undo x := by
  have hlive := UtxoStore.live_openLive db
  obtain ⟨-, hpresent, hother⟩ := applyBlocks_frame hlive hfits happly
  obtain ⟨mid, t', hmid, hdisc, hutxo, hundo⟩ :=
    disconnectBlocks_run hlive hfits hfresh happly rfl (fun _ _ _ => rfl) hcount
  have hnat : ∀ i, i ≤ height + blocks.length → (UInt32.ofNat i).toNat = i :=
    fun _ _ => toNat_ofNat_height (by omega)
  refine ⟨mid, t', hmid, hdisc, hutxo, ?_, ?_, ?_⟩
  · intro i hlt hle
    rw [hundo, hnat i (by omega), if_neg (by omega)]
    exact hpresent i hlt (by omega)
  · intro i hlt hle
    rw [hundo, hnat i hle, if_pos ⟨hlt, hle⟩]
  · intro x hx
    rw [hundo, if_neg (by omega)]
    exact hother x hx

/-! A run of two blocks over a database with one entry: the first block spends
it, the second spends an output of the first and one of its own, and names an
outpoint nobody created. -/

def sampleFirst : BlockRows where
  txs := [sampleTx 0 2]
  inputs := [sampleSpend 0 1]
  outputs := [sampleOutput 0 2 4]
  inputs_lt := by decide
  outputs_lt := by decide

def sampleSecond : BlockRows where
  txs := [sampleTx 0 3, sampleTx 1 4]
  inputs := [sampleSpend 0 2, sampleSpend 1 3, sampleSpend 1 9]
  outputs := [sampleOutput 0 3 3, sampleOutput 1 4 2]
  inputs_lt := by decide
  outputs_lt := by decide

theorem disconnectBlocks_restores_sample :
    ∃ s', applyBlocks (fun _ => .stored _ _) (.openLive sampleDb) 7
        [sampleFirst, sampleSecond] = some s' ∧
      ∃ t', disconnectBlocks s' 9 2 = (.ok (), t') ∧ t'.db.utxo = sampleDb.utxo := by
  have hrun : (applyBlocks (fun _ => .stored _ _) (.openLive sampleDb) 7
      [sampleFirst, sampleSecond]).isSome = true := by decide +kernel
  obtain ⟨s', hs'⟩ := Option.isSome_iff_exists.mp hrun
  have hfresh : CreatesFresh (fun _ => .stored _ _) (.openLive sampleDb) 7
      [sampleFirst, sampleSecond] := by
    refine CreatesFresh.cons (by decide +kernel) ?_
    intro mid hmid
    refine CreatesFresh.cons ?_ (fun _ _ => CreatesFresh.nil)
    have hall : ∀ k ∈ createdKeys sampleSecond.outputs,
        ((applyBlocks (fun _ => .stored _ _) (.openLive sampleDb) 7 [sampleFirst]).map
          fun mid => mid.db.utxo k) = some none := by decide +kernel
    intro k hk
    have hkey := hall k hk
    rw [hmid] at hkey
    exact Option.some.inj hkey
  obtain ⟨mid, t', hmid, hdisc, hutxo, -⟩ := disconnectBlocks_restores (fun _ => .stored _ _)
    sampleDb 7 [sampleFirst, sampleSecond] s' (by decide) hs' hfresh 2 (by decide)
  obtain rfl := Option.some.inj hmid
  exact ⟨s', hs', t', hdisc, hutxo⟩

end Bidx
