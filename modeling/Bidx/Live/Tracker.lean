import Bidx.Lib.Fallible
import Bidx.Parser.Tx
import Bidx.Store.Utxo

/-!
# The live tracker

`LiveTracker::catch_up` reconciles the store with the node's best chain.  It
asks for the node's height, walks back from the stored tip while the node has a
different block there, disconnecting one block a round, and then applies the
node's blocks forward up to that height.

What the model makes explicit:

* the node is asked one RPC at a time and may answer each from another state,
  so its answers are a function of the number of calls made before;
* every store operation that changes RocksDB is one atomic write.  A write can
  fail, or the process can die right before it, as told by `writeFault`;
* the requests, the `apply_block` and `disconnect_block` calls and the events are
  logged, all but the events with the tip record persisted at that moment.

Reads of RocksDB do not fail here, and the `debug_assert_eq!` on the block hash
is left out, as in a release build.
-/

namespace Bidx

open KeyValue

inductive RpcError where
  | http
  | rpc (code : Int) (message : String)
  | io
  | badResponse (message : String)
  | json
deriving DecidableEq

/-- The node's answers at one moment: `get_block_count`, `get_block_hash` and
`get_block_raw`. -/
structure NodeView where
  blockCount : Except RpcError UInt32
  blockHash : UInt32 → Except RpcError Hash32
  blockRaw : Hash32 → Except RpcError (List UInt8)

/-- How a run of the tracker stops; `died` is the end of the process. -/
inductive TrackerStop where
  | rpc (e : RpcError)
  | utxo (stop : Stop UtxoError)
  | parse (e : TxParseError)
  | reorgTooDeep (disconnects : Nat)
  | died
deriving DecidableEq

inductive TrackerEvent where
  | applied (height : UInt32) (hash : Hash32) (spends : List SpendRow)
  | disconnected (height : UInt32) (hash : Hash32)
  | reorgStart (depth : UInt32)
  | caughtUp (height : UInt32)
deriving DecidableEq

/-- What happens at a durable write instead of the write. -/
inductive WriteFault where
  | died
  | rocks
deriving DecidableEq

/-- The surroundings of a run. -/
structure TrackerEnv where
  digests : Digests
  maxReorgDepth : Nat
  /-- The answers to a call, by the number of calls before it. -/
  node : Nat → NodeView
  /-- The fault at a durable write, by the number of writes before it. -/
  writeFault : Nat → Option WriteFault
  /-- The iteration order of the pending map, by the number of writes before. -/
  orders : Nat → IterOrder Key UtxoValue

/-- A `getblockhash` request, with the tip persisted when it was made. -/
structure HashRequest where
  call : Nat
  tip : Option TipState
  height : UInt32
deriving DecidableEq

/-- An `apply_block` call, with the tip persisted when it was made. -/
structure ApplyRequest where
  tip : Option TipState
  height : UInt32
  block : FullBlock
deriving DecidableEq

/-- A `disconnect_block` call, with the tip persisted when it was made. -/
structure DisconnectRequest where
  tip : Option TipState
  height : UInt32
deriving DecidableEq

/-- The store, the counters and the logs. -/
structure World where
  store : UtxoStore
  calls : Nat
  writes : Nat
  requests : List HashRequest
  applyRequests : List ApplyRequest
  disconnectRequests : List DisconnectRequest
  events : List (TrackerEvent × Option FullBlock)

/-- A run's beginning. -/
def World.start (store : UtxoStore) : World := ⟨store, 0, 0, [], [], [], []⟩

abbrev TrackerM := Fallible World TrackerStop

namespace Tracker

/-! ## The node -/

def getBlockCount (env : TrackerEnv) : TrackerM (Except RpcError UInt32) := fun w =>
  (.ok (env.node w.calls).blockCount, { w with calls := w.calls + 1 })

def getBlockHash (env : TrackerEnv) (height : UInt32) : TrackerM (Except RpcError Hash32) :=
  fun w =>
    (.ok ((env.node w.calls).blockHash height), { w with
      calls := w.calls + 1
      requests := w.requests ++ [⟨w.calls, w.store.tip, height⟩] })

def getBlockRaw (env : TrackerEnv) (hash : Hash32) :
    TrackerM (Except RpcError (List UInt8)) := fun w =>
  (.ok ((env.node w.calls).blockRaw hash), { w with calls := w.calls + 1 })

/-- The `?` operator on an RPC answer. -/
def orRpc {α : Type} (answer : Except RpcError α) : TrackerM α :=
  Fallible.ofExcept TrackerStop.rpc answer

/-! ## The store -/

/-- A store operation that ends in one durable write. -/
def durable {α : Type} (env : TrackerEnv)
    (op : UtxoStore → Except (Stop UtxoError) α × UtxoStore) : TrackerM α := fun w =>
  match op w.store with
  | (.error stop, store) => (.error (.utxo stop), { w with store })
  | (.ok a, store) =>
      match env.writeFault w.writes with
      | none => (.ok a, { w with store, writes := w.writes + 1 })
      | some .died => (.error .died, w)
      | some .rocks => (.error (.utxo (.error .rocks)), w)

def disconnectBlock (env : TrackerEnv) (height : UInt32) : TrackerM Unit := do
  Fallible.modify fun w =>
    { w with disconnectRequests := w.disconnectRequests ++ [⟨w.store.tip, height⟩] }
  durable env fun store => store.disconnectBlock .none height

def setTip (env : TrackerEnv) (tip : TipState) : TrackerM Unit :=
  durable env fun store => (.ok (), store.setTip tip)

def applyBlock (env : TrackerEnv) (height : UInt32) (block : FullBlock) :
    TrackerM SpendResult := do
  Fallible.modify fun w =>
    { w with applyRequests := w.applyRequests ++ [⟨w.store.tip, height, block⟩] }
  let writes ← Fallible.read World.writes
  durable env fun store =>
    store.applyBlock (env.orders writes) .none height block.txs block.inputs block.outputs

/-- `on_event`. -/
def emit (event : TrackerEvent) (block : Option FullBlock) : TrackerM Unit :=
  Fallible.modify fun w => { w with events := w.events ++ [(event, block)] }

/-! ## Walking back -/

/-- Step the tip back to the block before it, under the hash the node has there. -/
def stepBack (env : TrackerEnv) (tip : TipState) : TrackerM TipState := do
  let answer ← getBlockHash env (tip.height - 1)
  let prevHash ← orRpc answer
  setTip env ⟨tip.height - 1, prevHash⟩
  pure ⟨tip.height - 1, prevHash⟩

/-- The first disconnect of a run is announced. -/
def announceReorg (disconnects : Nat) : TrackerM Unit :=
  if disconnects = 0 then emit (.reorgStart 0) none else pure ()

/-- Disconnect the block at the tip. -/
def disconnectTip (env : TrackerEnv) (disconnects : Nat) (tip : TipState) : TrackerM Unit := do
  announceReorg disconnects
  disconnectBlock env tip.height
  emit (.disconnected tip.height tip.hash) none

/-- One round of the walk back: `none` leaves the loop. -/
def walkRound (env : TrackerEnv) (disconnects : Nat) (tip : TipState) :
    TrackerM (Option TipState) := do
  let answer ← getBlockHash env tip.height
  -- An error reads as a node that does not have this height.
  let nodeHash := answer.toOption.getD Hash32.zero
  if nodeHash = tip.hash ∧ nodeHash ≠ Hash32.zero then
    pure none
  -- The genesis block is kept whatever the node has there.
  else if tip.height = 0 then
    pure none
  else if env.maxReorgDepth ≤ disconnects then
    Fallible.raise (.reorgTooDeep disconnects)
  else do
    -- The undo record is gone before the tip record moves.
    disconnectTip env disconnects tip
    let prev ← stepBack env tip
    pure (some prev)

/-- The loop; it is left at height zero, so `rounds` above the tip's height is
enough. -/
def walkBack (env : TrackerEnv) : Nat → Nat → TipState → TrackerM TipState
  | 0, _, tip => pure tip
  | rounds + 1, disconnects, tip => do
      let round ← walkRound env disconnects tip
      match round with
      | none => pure tip
      | some prev => walkBack env rounds (disconnects + 1) prev

/-! ## Applying forward -/

/-- `parse_header`. -/
def parseHeader (raw : List UInt8) : Except RpcError (BlockHeader × Bytes blockHeaderLen) :=
  if raw.length < blockHeaderLen then
    .error (.badResponse ("block payload too short: " ++ toString raw.length))
  else
    let hdr : Bytes blockHeaderLen := LittleEndian.arrayAt blockHeaderLen raw 0
    .ok (BlockHeader.parse hdr, hdr)

/-- Fill in the fees `apply_block` returned and the total over all transactions
but the first. -/
def fillFees (block : FullBlock) (fees : List UInt64) : FullBlock :=
  { block with
    txs := block.txs.mapIdx fun i tx => { tx with fee := fees.getD i 0 }
    blockRow := { block.blockRow with
      totalFee := ((List.range block.txs.length).filter fun i => decide (i ≠ 0)).foldl
        (fun total i => saturatingAdd total (fees.getD i 0)) 0 } }

/-- Fetch the block above the tip and parse it. -/
def fetchNext (env : TrackerEnv) (tip : TipState) : TrackerM (Hash32 × FullBlock) := do
  let answer ← getBlockHash env (tip.height + 1)
  let hash ← orRpc answer
  let answer ← getBlockRaw env hash
  let raw ← orRpc answer
  let header ← orRpc (parseHeader raw)
  let block ← Fallible.ofExcept TrackerStop.parse
    (parseBlockFull env.digests raw (tip.height + 1) hash header.1)
  pure (hash, block)

/-- One round of the forward loop. -/
def forwardRound (env : TrackerEnv) (tip : TipState) : TrackerM TipState := do
  let next ← fetchNext env tip
  -- Two durable writes: a run that ends between them has the block without its tip.
  let res ← applyBlock env (tip.height + 1) next.2
  setTip env ⟨tip.height + 1, next.1⟩
  emit (.applied (tip.height + 1) next.1 res.spends) (some (fillFees next.2 res.fees))
  pure ⟨tip.height + 1, next.1⟩

/-- `while local.height < node_tip_height`; `rounds` is the number of heights
left. -/
def forward (env : TrackerEnv) : Nat → TipState → TrackerM TipState
  | 0, tip => pure tip
  | rounds + 1, tip => do
      let next ← forwardRound env tip
      forward env rounds next

/-- From the common ancestor up to the node's tip. -/
def applyForward (env : TrackerEnv) (nodeTip : UInt32) (ancestor : TipState) : TrackerM Unit := do
  let last ← forward env (nodeTip.toNat - ancestor.height.toNat) ancestor
  emit (.caughtUp last.height) none

/-- A store without a tip record starts at the node's tip. -/
def startAtNodeTip (env : TrackerEnv) (nodeTip : UInt32) : TrackerM Unit := do
  let answer ← getBlockHash env nodeTip
  let hash ← orRpc answer
  setTip env ⟨nodeTip, hash⟩
  emit (.caughtUp nodeTip) none

/-- From a stored tip: back to the common ancestor, then forward. -/
def reconcile (env : TrackerEnv) (nodeTip : UInt32) (tip : TipState) : TrackerM Unit := do
  let ancestor ← walkBack env (tip.height.toNat + 1) 0 tip
  applyForward env nodeTip ancestor

/-- `catch_up`. -/
def catchUp (env : TrackerEnv) : TrackerM Unit := do
  let answer ← getBlockCount env
  let nodeTip ← orRpc answer
  let tip ← Fallible.read fun w => w.store.tip
  match tip with
  | none => startAtNodeTip env nodeTip
  | some tip => reconcile env nodeTip tip

end Tracker

end Bidx
