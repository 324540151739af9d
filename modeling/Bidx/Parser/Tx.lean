import Mathlib.Data.UInt
import Bidx.Core.Cursor
import Bidx.Core.Script

/-!
# Full block parsing

`parse_block_full` skips the 80-byte header, reads the transaction count and
parses each transaction with `parse_tx`.  A transaction's first count byte
doubles as the segwit marker: zero announces a flag byte, a count read afresh
and one witness stack per input after the outputs.

The `for` loops of the source become recursions on the number of rounds left;
rows are produced in push order.  Loop bounds are the `as u32` casts of the
counts, and the accumulating sums wrap as they do in a release build.
-/

namespace Bidx

inductive TxParseError where
  | cursor (e : ParseError)
  | txCountMismatch (declared parsed : UInt64)
  | badValue (value : UInt64)
  | badSegwitFlag (txIndex : UInt32)
deriving DecidableEq

/-- `MAX_MONEY`. -/
def maxMoney : Nat := 21000000 * 100000000

/-- The `#[from] ParseError` conversion of the `?` operator. -/
def liftCursor {α : Type} (r : Except ParseError α) : Except TxParseError α :=
  r.mapError TxParseError.cursor

/-- The input count of a transaction, given its first byte: behind a segwit
marker the flag and a fresh count, else the varint that byte begins. -/
def readInputCount (marker : UInt8) (txIndex : UInt32) (c : Cursor) :
    Except TxParseError (UInt64 × Cursor) := do
  if marker = 0x00 then
    let (flag, c) ← liftCursor c.readU8
    if flag = 0 then
      throw (.badSegwitFlag txIndex)
    else
      liftCursor c.readCount
  else if marker ≤ 0xfc then
    pure (marker.toUInt64, c)
  else if marker = 0xfd then
    let (n, c) ← liftCursor c.readU16
    pure (n.toUInt64, c)
  else if marker = 0xfe then
    let (n, c) ← liftCursor c.readU32
    pure (n.toUInt64, c)
  else
    let (n, c) ← liftCursor c.readU64
    if 4000000 < n.toNat then
      throw (.cursor (.countOverflow n c.pos))
    else
      pure (n, c)

/-- The input loop; `txid` and the witness fields are filled in later. -/
def parseInputs (height txIndex : UInt32) (isSingleInput : Bool) :
    Nat → UInt32 → Cursor → Except TxParseError (List InputRow × Cursor)
  | 0, _, c => pure ([], c)
  | rounds + 1, inputIndex, c => do
      let (prevTxid, c) ← liftCursor (c.readArray 32)
      let (prevVout, c) ← liftCursor c.readU32
      let (scriptLen, c) ← liftCursor c.readCount
      let c ← liftCursor (c.skip scriptLen.toNat)
      let (sequence, c) ← liftCursor c.readU32
      let row : InputRow := {
        height
        txIndex
        inputIndex
        txid := zeroBytes 32
        prevTxid
        prevVout
        scriptSigLen := scriptLen.toUInt32
        sequence
        witnessItems := 0
        witnessBytes := 0
        isCoinbase := isSingleInput && inputIndex == 0 && decide (prevTxid = zeroBytes 32) &&
          prevVout == 0xFFFFFFFF }
      let (rows, c) ← parseInputs height txIndex isSingleInput rounds (inputIndex + 1) c
      pure (row :: rows, c)

/-- The output loop; `txid` is filled in later. -/
def parseOutputs (D : Digests) (height txIndex : UInt32) :
    Nat → UInt32 → Cursor → Except TxParseError (List OutputRow × Cursor)
  | 0, _, c => pure ([], c)
  | rounds + 1, outputIndex, c => do
      let (valueSat, c) ← liftCursor c.readU64
      if maxMoney < valueSat.toNat then
        throw (.badValue valueSat)
      else
        let (spkLen, c) ← liftCursor c.readCount
        let (spk, c) ← liftCursor (c.readBytes spkLen.toNat)
        let (scriptType, addressHash) := classifyScript D spk
        let row : OutputRow := {
          height
          txIndex
          outputIndex
          txid := zeroBytes 32
          valueSat
          scriptPubkeyLen := spkLen.toUInt32
          scriptType := scriptType.code
          addressHash }
        let (rows, c) ← parseOutputs D height txIndex rounds (outputIndex + 1) c
        pure (row :: rows, c)

/-- One witness stack: skip every item, summing the lengths. -/
def readWitnessItems : Nat → UInt32 → Cursor → Except TxParseError (UInt32 × Cursor)
  | 0, witnessBytes, c => pure (witnessBytes, c)
  | rounds + 1, witnessBytes, c => do
      let (itemLen, c) ← liftCursor c.readCount
      let c ← liftCursor (c.skip itemLen.toNat)
      readWitnessItems rounds (witnessBytes + itemLen.toUInt32) c

/-- The witness loop: one stack per input row. -/
def readWitnesses : List InputRow → Cursor → Except TxParseError (List InputRow × Cursor)
  | [], c => pure ([], c)
  | inp :: inputs, c => do
      let (itemCount, c) ← liftCursor c.readCount
      let (witnessBytes, c) ← readWitnessItems itemCount.toNat inp.witnessBytes c
      let (rows, c) ← readWitnesses inputs c
      pure ({ inp with witnessItems := itemCount.toUInt32, witnessBytes } :: rows, c)

/-- A transaction row with its input and output rows. -/
structure ParsedTx where
  tx : TxRow
  inputs : List InputRow
  outputs : List OutputRow
deriving DecidableEq

/-- The bytes from `start` up to `stop`, both absolute. -/
def slice (block : List UInt8) (start stop : Nat) : List UInt8 :=
  (block.drop start).take (stop - start)

/-- `parse_tx`. -/
def parseTx (D : Digests) (c : Cursor) (block : List UInt8) (height txIndex : UInt32) :
    Except TxParseError (ParsedTx × Cursor) := do
  let absStart := c.pos
  let (version, c) ← liftCursor c.readI32
  let (marker, c) ← liftCursor c.readU8
  let hasWitness := decide (marker = 0x00)
  let (inputCount, c) ← readInputCount marker txIndex c
  let isSingleInput := decide (inputCount = 1)
  let (inputs, c) ← parseInputs height txIndex isSingleInput inputCount.toUInt32.toNat 0 c
  let (outputCount, c) ← liftCursor c.readCount
  let (outputs, c) ← parseOutputs D height txIndex outputCount.toUInt32.toNat 0 c
  let strippedPrefixEnd := c.pos
  let (inputs, c) ← if hasWitness then readWitnesses inputs c else pure (inputs, c)
  let (locktime, c) ← liftCursor c.readU32
  let absEnd := c.pos
  -- The stripped serialization: marker and flag sit at bytes 4 and 5 of the prefix.
  let txid : Bytes 32 :=
    if hasWitness then
      let stripped := slice block absStart strippedPrefixEnd
      let lock := slice block (absEnd - 4) absEnd
      dsha256 D (stripped.take 4 ++ stripped.drop 6 ++ lock)
    else
      dsha256 D (slice block absStart absEnd)
  let totalLen := absEnd - absStart
  let strippedLen := if hasWitness then strippedPrefixEnd - absStart - 2 + 4 else totalLen
  let weight := strippedLen * 3 + totalLen
  let tx : TxRow := {
    height
    txIndex
    txid
    version
    locktime
    size := UInt32.ofNat totalLen
    weight := UInt32.ofNat weight
    fee := 0
    inputCount := inputCount.toUInt32
    outputCount := outputCount.toUInt32
    hasWitness }
  pure (⟨tx, inputs.map fun inp => { inp with txid }, outputs.map fun out => { out with txid }⟩, c)

/-- The transaction loop of `parse_block_full`. -/
def parseTxs (D : Digests) (payload : List UInt8) (height : UInt32) :
    Nat → UInt32 → Cursor → Except TxParseError (List ParsedTx × Cursor)
  | 0, _, c => pure ([], c)
  | rounds + 1, txIndex, c => do
      let (tx, c) ← parseTx D c payload height txIndex
      let (txs, c) ← parseTxs D payload height rounds (txIndex + 1) c
      pure (tx :: txs, c)

/-- `parse_block_full`.  The rows of all transactions are concatenated in
order; the coinbase value sums the first transaction's outputs and the block
weight clamps the sum of the transaction weights plus four times the header. -/
def parseBlockFull (D : Digests) (payload : List UInt8) (height : UInt32) (blockHash : Hash32)
    (header : BlockHeader) : Except TxParseError FullBlock := do
  let c ← liftCursor ((Cursor.new payload).skip 80)
  let (txCount, c) ← liftCursor c.readCount
  let (parsed, _) ← parseTxs D payload height txCount.toUInt32.toNat 0 c
  if UInt64.ofNat parsed.length ≠ txCount then
    throw (.txCountMismatch txCount (UInt64.ofNat parsed.length))
  else
    let coinbaseValue := match parsed with
      | [] => 0
      | first :: _ => (first.outputs.map OutputRow.valueSat).sum
    let txWeightSum := (parsed.map fun p => p.tx.weight.toUInt64).sum
    let blockWeight := UInt32.ofNat (min (txWeightSum + 80 * 4).toNat 0xFFFFFFFF)
    pure {
      blockRow := {
        height
        hash := blockHash
        prevHash := header.prevHash
        merkleRoot := header.merkleRoot
        time := header.time
        bits := header.bits
        nonce := header.nonce
        version := header.version
        txCount := txCount.toUInt32
        size := UInt32.ofNat payload.length
        weight := blockWeight
        totalFee := 0
        coinbaseValue }
      txs := parsed.map ParsedTx.tx
      inputs := (parsed.map ParsedTx.inputs).flatten
      outputs := (parsed.map ParsedTx.outputs).flatten }

end Bidx
