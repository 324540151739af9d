import Bidx.Parser.Chain
import Bidx.Parser.Tx
import Bidx.Pipeline.SinkLog

/-!
# The bulk parse

`run_parse` builds the chain index, clamps the range of heights to it, parses the
blocks of the range in parallel and feeds them to the ordered consumer.

The workers take the heights in an arbitrary order, and what they send arrives in
that order; a worker that fails ends the stage, and the run then fails whatever
the consumer makes of the messages sent before.  The file cache is transparent
here: `blockBytes` is the bytes `block_bytes` returns for a location.

The sink's calls are logged by the consumer; what they do to the part files is
`SinkFiles.handle`.  A part that is still open when the run fails stays unreadable.

Network detection and the disk-space pre-flight come before the store is opened
and are taken to have passed.  When the consumer is gone, a worker's failed send
hides the consumer's error; here the consumer's error is the one returned.
-/

namespace Bidx

open KeyValue

/-- `ChainIndex::tip_height`. -/
def ChainIndex.tipHeight (index : ChainIndex) : Option Nat :=
  if index.byHeight.length = 0 then none else some (index.byHeight.length - 1)

structure ParseConfig where
  start : Nat
  endHeight : Option Nat
  blocksPerPart : Nat
  orphanBlocks : Option (List Hash32)

inductive ParseStop where
  | chain (stop : ChainStop)
  | emptyChain
  | emptyRange (start endHeight : Nat)
  | blk (e : BlkError)
  | parse (e : TxParseError)
  | panic
  | consume (stop : ConsumeStop)
deriving DecidableEq

/-- The surroundings of a bulk parse. -/
structure ParseEnv (W : Type) where
  digests : Digests
  work : BlockHeader → W
  chainOrders : ChainOrders W
  fuel : Nat
  blockBytes : BlockLocation → Except BlkError (List UInt8)
  /-- The order in which the heights of a range are handled. -/
  workerOrder : List Nat → List Nat
  workerOrder_perm : ∀ heights, (workerOrder heights).Perm heights
  faults : ConsumeFaults
  orders : Nat → IterOrder Key UtxoValue

/-- The heights to parse, clamped to the chain. -/
def parseRange (cfg : ParseConfig) (index : ChainIndex) : Except ParseStop (Nat × Nat) :=
  match index.tipHeight with
  | none => .error .emptyChain
  | some tip =>
      -- A start above the tip is moved to the tip, not refused.
      let start := min cfg.start tip
      let endHeight := min (cfg.endHeight.getD (tip + 1)) (tip + 1)
      if endHeight ≤ start then
        .error (.emptyRange start endHeight)
      else
        .ok (start, endHeight)

variable {W : Type}

/-- The message for the bytes of a block: an orphan is skipped unparsed. -/
def parsePayload (env : ParseEnv W) (cfg : ParseConfig) (height : Nat) (bytes : List UInt8) :
    Except ParseStop WorkItem :=
  -- `bytes[..80]` panics on a shorter payload.
  if bytes.length < blockHeaderLen then
    .error .panic
  else
    let headerRaw : Bytes blockHeaderLen := LittleEndian.arrayAt blockHeaderLen bytes 0
    let hash := dsha256 env.digests headerRaw.toList
    if hash ∈ cfg.orphanBlocks.getD [] then
      .ok (.skipped height)
    else
      match parseBlockFull env.digests bytes (UInt32.ofNat height) hash
          (BlockHeader.parse headerRaw) with
      | .ok block => .ok (.block height block)
      | .error e => .error (.parse e)

/-- What a worker does for one height. -/
def parseHeight (env : ParseEnv W) (cfg : ParseConfig) (index : ChainIndex) (height : Nat) :
    Except ParseStop WorkItem :=
  match index.byHeight[height]? with
  | none => .error .panic
  | some location =>
      match env.blockBytes location with
      | .error e => .error (.blk e)
      | .ok bytes => parsePayload env cfg height bytes

/-- The messages sent for a list of heights, up to the first failure. -/
def parseStage (env : ParseEnv W) (cfg : ParseConfig) (index : ChainIndex) :
    List Nat → List WorkItem × Except ParseStop Unit
  | [] => ([], .ok ())
  | height :: heights =>
      match parseHeight env cfg index height with
      | .error stop => ([], .error stop)
      | .ok item =>
          (item :: (parseStage env cfg index heights).1, (parseStage env cfg index heights).2)

/-- What a run returns, the store it leaves and its calls to the sink. -/
structure ParseRun where
  result : Except ParseStop Unit
  store : UtxoStore
  sink : List SinkEvent

/-- The two stages over a range. -/
def parseOver (env : ParseEnv W) (cfg : ParseConfig) (index : ChainIndex) (start endHeight : Nat)
    (store : UtxoStore) : ParseRun :=
  let stage := parseStage env cfg index
    (env.workerOrder (List.range' start (endHeight - start)))
  let consumed := consumeOrdered ⟨endHeight, cfg.blocksPerPart, env.faults, env.orders⟩ start
    store stage.1
  -- The workers' error is looked at first.
  match stage.2, consumed.2 with
  | .error stop, _ => ⟨.error stop, consumed.1.store, consumed.1.sink⟩
  | .ok (), .error stop => ⟨.error (.consume stop), consumed.1.store, consumed.1.sink⟩
  | .ok (), .ok () => ⟨.ok (), consumed.1.store, consumed.1.sink⟩

variable [AddMonoid W] [LinearOrder W]

/-- `run_parse` over the files of a directory. -/
def runParse (env : ParseEnv W) (cfg : ParseConfig) (files : List BlkFile) (store : UtxoStore) :
    ParseRun :=
  match buildChainIndex env.digests env.work env.chainOrders env.fuel files with
  | .error stop => ⟨.error (.chain stop), store, []⟩
  | .ok (index, _) =>
      match parseRange cfg index with
      | .error stop => ⟨.error stop, store, []⟩
      | .ok (start, endHeight) => parseOver env cfg index start endHeight store

/-! ## The directories -/

/-- The two directories a bulk parse writes to. -/
structure ParseDirs where
  utxo : Db
  out : OutDir

/-- A UTXO directory without records. -/
def Db.fresh : Db := ⟨fun _ => none, fun _ => none, none⟩

/-- Two empty directories. -/
def ParseDirs.fresh : ParseDirs := ⟨.fresh, .fresh⟩

/-- `run_parse` as a command: it opens the UTXO directory and leaves both directories. -/
def runParseIn (env : ParseEnv W) (cfg : ParseConfig) (files : List BlkFile) (dirs : ParseDirs) :
    Except ParseStop Unit × ParseDirs :=
  let run := runParse env cfg files (.openBulk dirs.utxo)
  (run.result, ⟨run.store.db, dirs.out.after run.sink⟩)

end Bidx
