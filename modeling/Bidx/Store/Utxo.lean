import Bidx.Lib.KeyValue
import Bidx.Store.Codec

/-!
# The UTXO store

`UtxoStore` keeps the UTXO set in the default column family, one undo record per
height in `undo` and the chain tip in `meta`.  `apply_block` seeds a pending map
with all outputs of the block, resolves every input against the pending map,
then (when enabled) the recent-UTXO cache, then the database as it was before
the block, and commits one write batch.  `disconnect_block` plays an undo record
backwards.

What the model makes explicit:

* the hash map behind `pending` is iterated in an arbitrary `IterOrder`;
* every RocksDB call can fail, as told by a `RocksFaults` record;
* the cache lives behind its own lock, so its changes survive a failed call:
  an aborted input loop still hands its cache back.
-/

namespace Bidx

open KeyValue

inductive UtxoError where
  | rocks
  | noUndo (height : UInt32)
  | corruptUndo (height : UInt32)
  | noTip
deriving DecidableEq

/-- `FxHashMap<[u8; 36], UtxoValue>`. -/
abbrev UtxoMap := AList (fun _ : Key => UtxoValue)

/-! ## The recent-UTXO cache -/

/-- `CACHE_ENTRY_COST`. -/
def cacheEntryCost : Nat := 112

structure RecentUtxoCache where
  map : UtxoMap
  /-- Creation order, oldest first; may hold keys no longer resident. -/
  order : List Key
  budgetBytes : Nat
  hits : Nat
  misses : Nat

namespace RecentUtxoCache

def new (budgetBytes : Nat) : RecentUtxoCache := ⟨∅, [], budgetBytes, 0, 0⟩

/-- The loop of `evict_to_budget`: drop from the front of the queue while over
budget; an exhausted queue ends it. -/
def evictLoop (budgetBytes : Nat) : UtxoMap → List Key → UtxoMap × List Key
  | map, [] => (map, [])
  | map, key :: order =>
      if budgetBytes < map.keys.length * cacheEntryCost then
        evictLoop budgetBytes (map.erase key) order
      else
        (map, key :: order)

def evictToBudget (c : RecentUtxoCache) : RecentUtxoCache :=
  let kept := evictLoop c.budgetBytes c.map c.order
  { c with map := kept.1, order := kept.2 }

/-- `insert`: a resident key is refreshed without being queued again. -/
def insert (c : RecentUtxoCache) (key : Key) (val : UtxoValue) : RecentUtxoCache :=
  let inserted := { c with map := c.map.insert key val }
  match c.map.lookup key with
  -- Its place in the queue stays, and nothing is evicted.
  | some _ => inserted
  | none => evictToBudget { inserted with order := c.order ++ [key] }

/-- `remove`: a hit leaves its key in the queue. -/
def remove (c : RecentUtxoCache) (key : Key) : Option UtxoValue × RecentUtxoCache :=
  match c.map.lookup key with
  | some v => (some v, { c with map := c.map.erase key, hits := c.hits + 1 })
  | none => (none, { c with misses := c.misses + 1 })

end RecentUtxoCache

/-! ## The database and the store -/

/-- The three column families.  Undo records are keyed by the height whose
four big-endian bytes are the source's key. -/
structure Db where
  utxo : Key → Option (List UInt8)
  undo : UInt32 → Option (List UInt8)
  tip : Option (List UInt8)

/-- A write batch over the `default` and `undo` families. -/
structure WriteBatch where
  utxo : List (Op Key (List UInt8))
  undo : List (Op UInt32 (List UInt8))

/-- Commit a batch atomically. -/
def Db.write (db : Db) (batch : WriteBatch) : Db :=
  { db with
    utxo := KeyValue.write db.utxo batch.utxo
    undo := KeyValue.write db.undo batch.undo }

structure UtxoStore where
  db : Db
  recent : Option RecentUtxoCache
  undoEnabled : Bool

namespace UtxoStore

/-- `open`: bulk mode. -/
def openBulk (db : Db) : UtxoStore := ⟨db, none, false⟩

/-- `open_live`: undo records on, no cache. -/
def openLive (db : Db) : UtxoStore := ⟨db, none, true⟩

/-- `open_cached`: bulk mode with the recent-UTXO cache. -/
def openCached (db : Db) (cacheBytes : Nat) : UtxoStore :=
  ⟨db, some (RecentUtxoCache.new cacheBytes), false⟩

end UtxoStore

/-- Which RocksDB operations of one call fail: its point lookups by position,
and its final write. -/
structure RocksFaults where
  get : Nat → Bool
  write : Bool

/-- All operations succeed. -/
def RocksFaults.none : RocksFaults := ⟨fun _ => false, false⟩

structure SpendResult where
  spends : List SpendRow
  fees : List UInt64
  missing : Nat
  dbLookups : Nat
  pendingHits : Nat
  cacheHits : Nat

/-! ## Applying a block -/

/-- `u64::saturating_add`. -/
def saturatingAdd (a b : UInt64) : UInt64 :=
  UInt64.ofNat (min (a.toNat + b.toNat) (2 ^ 64 - 1))

/-- `u64::saturating_sub`. -/
def saturatingSub (a b : UInt64) : UInt64 := UInt64.ofNat (a.toNat - b.toNat)

/-- The outpoint an output row creates. -/
def OutputRow.key (out : OutputRow) : Key := makeKey out.txid out.outputIndex

/-- The value stored for it. -/
def OutputRow.value (height : UInt32) (out : OutputRow) : UtxoValue where
  valueSat := out.valueSat
  scriptType := out.scriptType
  height
  addressHash := out.addressHash

/-- The outpoint an input row spends. -/
def InputRow.key (inp : InputRow) : Key := makeKey inp.prevTxid inp.prevVout

/-- The pending map before the input loop: every output of the block. -/
def seedPending (height : UInt32) (outputs : List OutputRow) : UtxoMap :=
  insertAll ∅ (outputs.map fun out => (out.key, out.value height))

/-- The variables of the input loop. -/
structure InputLoop where
  pending : UtxoMap
  recent : Option RecentUtxoCache
  batch : List (Op Key (List UInt8))
  undoSpent : List (Key × UtxoValue)
  sameBlock : List Key
  spends : List SpendRow
  fees : List UInt64
  missing : Nat
  dbLookups : Nat
  pendingHits : Nat
  cacheHits : Nat

/-- A stopped input loop: why, and the cache it leaves behind. -/
structure Aborted where
  stop : Stop UtxoError
  recent : Option RecentUtxoCache

/-- The row `record_spend` pushes. -/
def spendRow (height : UInt32) (inp : InputRow) (v : UtxoValue) : SpendRow where
  height
  spendingTxIndex := inp.txIndex
  spendingInputIndex := inp.inputIndex
  spendingTxid := inp.txid
  spentTxid := inp.prevTxid
  spentVout := inp.prevVout
  spentValueSat := v.valueSat
  spentScriptType := v.scriptType
  spentAddressHash := v.addressHash
  spentHeight := v.height

/-- `record_spend`: push the row and credit the spending transaction; indexing
`fees` out of range panics. -/
def recordSpend (height : UInt32) (inp : InputRow) (v : UtxoValue) (st : InputLoop) :
    Except Aborted InputLoop :=
  if inp.txIndex.toNat < st.fees.length then
    .ok { st with
      spends := st.spends ++ [spendRow height inp v]
      fees := st.fees.modify inp.txIndex.toNat (saturatingAdd · v.valueSat) }
  else
    .error ⟨.panic, st.recent⟩

/-- Look a spent outpoint up in the cache, when there is one. -/
def removeRecent (recent : Option RecentUtxoCache) (key : Key) :
    Option UtxoValue × Option RecentUtxoCache :=
  match recent with
  | none => (none, none)
  | some c => ((c.remove key).1, some (c.remove key).2)

/-- The database read of one input.  An absent or undecodable entry counts as
missing; a hit is deleted by the batch and, with undo on, remembered. -/
def lookupDb (db : Db) (undoEnabled : Bool) (faults : RocksFaults) (height : UInt32)
    (inp : InputRow) (st : InputLoop) : Except Aborted InputLoop :=
  if faults.get st.dbLookups then
    .error ⟨.error .rocks, st.recent⟩
  else
    match (db.utxo inp.key).bind UtxoValue.decode with
    | some v =>
        recordSpend height inp v { st with
          dbLookups := st.dbLookups + 1
          batch := st.batch ++ [.delete inp.key]
          undoSpent := if undoEnabled then st.undoSpent ++ [(inp.key, v)] else st.undoSpent }
    | none =>
        .ok { st with dbLookups := st.dbLookups + 1, missing := st.missing + 1 }

/-- One round of the input loop. -/
def resolveInput (db : Db) (undoEnabled : Bool) (faults : RocksFaults) (height : UInt32)
    (st : InputLoop) (inp : InputRow) : Except Aborted InputLoop :=
  if inp.isCoinbase then
    .ok st
  else
    match st.pending.lookup inp.key with
    -- Created in this block: the output never reaches the database.
    | some v =>
        recordSpend height inp v { st with
          pending := st.pending.erase inp.key
          sameBlock := if undoEnabled then inp.key :: st.sameBlock else st.sameBlock
          pendingHits := st.pendingHits + 1 }
    | none =>
        match removeRecent st.recent inp.key with
        -- The database holds what the cache holds, so a hit still deletes there.
        | (some v, recent) =>
            recordSpend height inp v { st with
              recent
              cacheHits := st.cacheHits + 1
              batch := st.batch ++ [.delete inp.key] }
        | (none, recent) => lookupDb db undoEnabled faults height inp { st with recent }

/-- The input loop. -/
def resolveInputs (db : Db) (undoEnabled : Bool) (faults : RocksFaults) (height : UInt32) :
    List InputRow → InputLoop → Except Aborted InputLoop
  | [], st => .ok st
  | inp :: inputs, st =>
      match resolveInput db undoEnabled faults height st inp with
      | .ok st' => resolveInputs db undoEnabled faults height inputs st'
      | .error aborted => .error aborted

/-- The loop variables before the first input. -/
def initialLoop (recent : Option RecentUtxoCache) (height : UInt32) (txs : List TxRow)
    (outputs : List OutputRow) : InputLoop where
  pending := seedPending height outputs
  recent
  batch := []
  undoSpent := []
  sameBlock := []
  spends := []
  fees := List.replicate txs.length 0
  missing := 0
  dbLookups := 0
  pendingHits := 0
  cacheHits := 0

/-- Publish the surviving outputs into the cache. -/
def publish (order : IterOrder Key UtxoValue) (pending : UtxoMap) (c : RecentUtxoCache) :
    RecentUtxoCache :=
  (order.list pending).foldl (fun c e => c.insert e.1 e.2) c

/-- Charge every output to its transaction; `none` is an index out of range. -/
def subtractOutputs : List OutputRow → List UInt64 → Option (List UInt64)
  | [], fees => some fees
  | out :: outputs, fees =>
      if out.txIndex.toNat < fees.length then
        subtractOutputs outputs (fees.modify out.txIndex.toNat (saturatingSub · out.valueSat))
      else
        none

/-- The undo record of a block: the database outputs it spent, and the
outpoints it created that it did not spend itself. -/
def blockUndo (outputs : List OutputRow) (st : InputLoop) : BlockUndo where
  spent := st.undoSpent
  created := (outputs.map OutputRow.key).filter fun k => decide (k ∉ st.sameBlock)

/-- The batch of a block: the deletes of the input loop, one put per surviving
output, and with undo on the undo record. -/
def blockBatch (order : IterOrder Key UtxoValue) (undoEnabled : Bool) (height : UInt32)
    (outputs : List OutputRow) (st : InputLoop) : WriteBatch where
  utxo := st.batch ++ (order.list st.pending).map fun e => .put e.1 e.2.encode
  undo := if undoEnabled then [.put height (blockUndo outputs st).encode] else []

/-- `apply_block`. -/
def UtxoStore.applyBlock (order : IterOrder Key UtxoValue) (faults : RocksFaults)
    (s : UtxoStore) (height : UInt32) (txs : List TxRow) (inputs : List InputRow)
    (outputs : List OutputRow) : Except (Stop UtxoError) SpendResult × UtxoStore :=
  match resolveInputs s.db s.undoEnabled faults height inputs
      (initialLoop s.recent height txs outputs) with
  | .error aborted => (.error aborted.stop, { s with recent := aborted.recent })
  | .ok st =>
      let published := { s with recent := st.recent.map (publish order st.pending) }
      match subtractOutputs outputs st.fees with
      -- The cache has the outputs of a block that is never written.
      | none => (.error .panic, published)
      | some fees =>
          if faults.write then
            (.error (.error .rocks), published)
          else
            (.ok {
              spends := st.spends
              fees
              missing := st.missing
              dbLookups := st.dbLookups
              pendingHits := st.pendingHits
              cacheHits := st.cacheHits },
            { published with
              db := s.db.write (blockBatch order s.undoEnabled height outputs st) })

/-! ## Disconnecting a block -/

/-- The batch that plays an undo record backwards: restore, then delete. -/
def disconnectBatch (height : UInt32) (undo : BlockUndo) : WriteBatch where
  utxo := (undo.spent.map fun e => .put e.1 e.2.encode) ++ undo.created.map .delete
  undo := [.delete height]

/-- `disconnect_block`. -/
def UtxoStore.disconnectBlock (faults : RocksFaults) (s : UtxoStore) (height : UInt32) :
    Except (Stop UtxoError) Unit × UtxoStore :=
  if faults.get 0 then
    (.error (.error .rocks), s)
  else
    match s.db.undo height with
    | none => (.error (.error (.noUndo height)), s)
    | some raw =>
        match BlockUndo.decode raw with
        | none => (.error (.error (.corruptUndo height)), s)
        | some undo =>
            if faults.write then
              (.error (.error .rocks), s)
            else
              (.ok (), { s with db := s.db.write (disconnectBatch height undo) })

/-! ## The tip record -/

structure TipState where
  height : UInt32
  hash : Hash32
deriving DecidableEq

/-- The 36 bytes of the tip record. -/
def TipState.encode (tip : TipState) : List UInt8 :=
  LittleEndian.toBytes 4 tip.height.toNat ++ tip.hash.toList

/-- `set_tip`, when the write succeeds. -/
def UtxoStore.setTip (s : UtxoStore) (tip : TipState) : UtxoStore :=
  { s with db := { s.db with tip := some tip.encode } }

/-- `tip`: a record of any other length reads as no tip. -/
def UtxoStore.tip (s : UtxoStore) : Option TipState :=
  match s.db.tip with
  | some b =>
      if b.length = 36 then
        some ⟨u32At b 0, LittleEndian.arrayAt 32 b 4⟩
      else
        none
  | none => none

@[simp] theorem UtxoStore.tip_setTip (s : UtxoStore) (tip : TipState) :
    (s.setTip tip).tip = some tip := by
  have h4 : (LittleEndian.toBytes 4 tip.height.toNat).length = 4 := LittleEndian.length_toBytes _ _
  have hlen : tip.encode.length = 36 := by simp [TipState.encode]
  have hhash : LittleEndian.arrayAt 32 tip.encode 4 = tip.hash := by
    have hdrop : tip.encode.drop 4 = tip.hash.toList ++ [] := by
      rw [TipState.encode, List.drop_left' h4, List.append_nil]
    exact LittleEndian.arrayAt_of_drop tip.hash hdrop
  have hheight : u32At tip.encode 0 = tip.height := by
    rw [u32At, List.drop_zero, TipState.encode, List.take_left' h4,
      LittleEndian.ofBytes_toBytes_u32]
  simp [setTip, UtxoStore.tip, hlen, hhash, hheight]

end Bidx
