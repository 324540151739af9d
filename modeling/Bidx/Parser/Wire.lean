import Bidx.Parser.Tx

/-!
# Canonical transaction serialization

The wire format the parser reads, written from the sending side: CompactSize
counts in their shortest form, the legacy layout, and the BIP144 layout with
marker, flag and witness stacks.  `WireTx.rows` says which rows a transaction at
a given position of a block stands for.

These definitions do not mention the cursor.  The round trip between them and
`parseBlockFull` is proved in `Bidx.Parser.RoundTrip`.
-/

namespace Bidx

open LittleEndian

/-- CompactSize in its shortest form. -/
def compactSize (n : Nat) : List UInt8 :=
  if n ≤ 0xfc then
    [UInt8.ofNat n]
  else if n ≤ 0xffff then
    0xfd :: toBytes 2 n
  else if n ≤ 0xffffffff then
    0xfe :: toBytes 4 n
  else
    0xff :: toBytes 8 n

/-- A length-prefixed byte string. -/
def varBytes (bs : List UInt8) : List UInt8 := compactSize bs.length ++ bs

structure WireInput where
  prevTxid : Bytes 32
  prevVout : UInt32
  scriptSig : List UInt8
  sequence : UInt32
deriving DecidableEq

structure WireOutput where
  value : UInt64
  scriptPubkey : List UInt8
deriving DecidableEq

/-- The segwit part of a transaction: flag byte and one stack per input. -/
structure WireWitness where
  flag : UInt8
  witnesses : List (List (List UInt8))
deriving DecidableEq

structure WireTx where
  version : Int32
  inputs : List WireInput
  outputs : List WireOutput
  locktime : UInt32
  witness : Option WireWitness
deriving DecidableEq

def WireInput.bytes (i : WireInput) : List UInt8 :=
  i.prevTxid.toList ++ (toBytes 4 i.prevVout.toNat ++
    (varBytes i.scriptSig ++ toBytes 4 i.sequence.toNat))

def WireOutput.bytes (o : WireOutput) : List UInt8 :=
  toBytes 8 o.value.toNat ++ varBytes o.scriptPubkey

/-- One witness stack: item count, then each item length-prefixed. -/
def stackBytes (stack : List (List UInt8)) : List UInt8 :=
  compactSize stack.length ++ (stack.map varBytes).flatten

namespace WireTx

/-- Inputs with their count. -/
def inputBytes (tx : WireTx) : List UInt8 :=
  compactSize tx.inputs.length ++ (tx.inputs.map WireInput.bytes).flatten

/-- Outputs with their count. -/
def outputBytes (tx : WireTx) : List UInt8 :=
  compactSize tx.outputs.length ++ (tx.outputs.map WireOutput.bytes).flatten

/-- The witness-stripped serialization, whose double SHA-256 is the txid. -/
def stripped (tx : WireTx) : List UInt8 :=
  toBytes 4 tx.version.toUInt32.toNat ++ (tx.inputBytes ++
    (tx.outputBytes ++ toBytes 4 tx.locktime.toNat))

/-- The full serialization. -/
def serialize (tx : WireTx) : List UInt8 :=
  match tx.witness with
  | none => tx.stripped
  | some w =>
      toBytes 4 tx.version.toUInt32.toNat ++ (0x00 :: w.flag :: (tx.inputBytes ++
        (tx.outputBytes ++ ((w.witnesses.map stackBytes).flatten ++ toBytes 4 tx.locktime.toNat))))

/-- The witness stack of input `j`; empty for a legacy transaction. -/
def stack (tx : WireTx) (j : Nat) : List (List UInt8) :=
  match tx.witness with
  | none => []
  | some w => w.witnesses.getD j []

/-- BIP141 weight. -/
def weight (tx : WireTx) : Nat := 3 * tx.stripped.length + tx.serialize.length

def txid (D : Digests) (tx : WireTx) : Bytes 32 := dsha256 D tx.stripped

/-- A coinbase transaction: one input, spending the null outpoint. -/
def IsCoinbaseInput (tx : WireTx) (i : WireInput) : Prop :=
  tx.inputs.length = 1 ∧ i.prevTxid = zeroBytes 32 ∧ i.prevVout = 0xFFFFFFFF

instance (tx : WireTx) (i : WireInput) : Decidable (tx.IsCoinbaseInput i) :=
  inferInstanceAs (Decidable (_ ∧ _ ∧ _))

/-- The row of input `j` of the transaction at position `index`. -/
def inputRow (D : Digests) (height : UInt32) (index : Nat) (tx : WireTx) (j : Nat)
    (i : WireInput) : InputRow where
  height
  txIndex := UInt32.ofNat index
  inputIndex := UInt32.ofNat j
  txid := tx.txid D
  prevTxid := i.prevTxid
  prevVout := i.prevVout
  scriptSigLen := UInt32.ofNat i.scriptSig.length
  sequence := i.sequence
  witnessItems := UInt32.ofNat (tx.stack j).length
  witnessBytes := UInt32.ofNat ((tx.stack j).map List.length).sum
  isCoinbase := decide (tx.IsCoinbaseInput i)

/-- The row of output `j` of the transaction at position `index`. -/
def outputRow (D : Digests) (height : UInt32) (index : Nat) (tx : WireTx) (j : Nat)
    (o : WireOutput) : OutputRow where
  height
  txIndex := UInt32.ofNat index
  outputIndex := UInt32.ofNat j
  txid := tx.txid D
  valueSat := o.value
  scriptPubkeyLen := UInt32.ofNat o.scriptPubkey.length
  scriptType := (classifyScript D o.scriptPubkey).1.code
  addressHash := (classifyScript D o.scriptPubkey).2

/-- The transaction row; the fee is filled in by the store. -/
def txRow (D : Digests) (height : UInt32) (index : Nat) (tx : WireTx) : TxRow where
  height
  txIndex := UInt32.ofNat index
  txid := tx.txid D
  version := tx.version
  locktime := tx.locktime
  size := UInt32.ofNat tx.serialize.length
  weight := UInt32.ofNat tx.weight
  fee := 0
  inputCount := UInt32.ofNat tx.inputs.length
  outputCount := UInt32.ofNat tx.outputs.length
  hasWitness := tx.witness.isSome

/-- All rows of the transaction at position `index`. -/
def rows (D : Digests) (height : UInt32) (index : Nat) (tx : WireTx) : ParsedTx where
  tx := tx.txRow D height index
  inputs := tx.inputs.mapIdx (tx.inputRow D height index)
  outputs := tx.outputs.mapIdx (tx.outputRow D height index)

/-- The parser's limits: at least one input, every count and length within the
sanity bound, values within the money supply with a total that fits `u64`, and
for segwit a non-zero flag with one stack per input. -/
structure WithinLimits (tx : WireTx) : Prop where
  inputs_ne_nil : tx.inputs ≠ []
  inputs_le : tx.inputs.length ≤ Cursor.maxItems
  outputs_le : tx.outputs.length ≤ Cursor.maxItems
  scriptSig_le : ∀ i ∈ tx.inputs, i.scriptSig.length ≤ Cursor.maxItems
  scriptPubkey_le : ∀ o ∈ tx.outputs, o.scriptPubkey.length ≤ Cursor.maxItems
  value_le : ∀ o ∈ tx.outputs, o.value.toNat ≤ maxMoney
  total_lt : (tx.outputs.map fun o => o.value.toNat).sum < 2 ^ 64
  flag_ne : ∀ w ∈ tx.witness, w.flag ≠ 0
  witnesses_length : ∀ w ∈ tx.witness, w.witnesses.length = tx.inputs.length
  stack_le : ∀ w ∈ tx.witness, ∀ s ∈ w.witnesses, s.length ≤ Cursor.maxItems
  item_le : ∀ w ∈ tx.witness, ∀ s ∈ w.witnesses, ∀ item ∈ s, item.length ≤ Cursor.maxItems

/-- What the parser checks of a transaction.  A legacy transaction has an input, since its
count would read as the segwit marker otherwise. -/
structure Parsable (tx : WireTx) : Prop where
  inputs_ne_nil : tx.witness = none → tx.inputs ≠ []
  inputs_le : tx.inputs.length ≤ Cursor.maxItems
  outputs_le : tx.outputs.length ≤ Cursor.maxItems
  scriptSig_le : ∀ i ∈ tx.inputs, i.scriptSig.length ≤ Cursor.maxItems
  scriptPubkey_le : ∀ o ∈ tx.outputs, o.scriptPubkey.length ≤ Cursor.maxItems
  value_le : ∀ o ∈ tx.outputs, o.value.toNat ≤ maxMoney
  flag_ne : ∀ w ∈ tx.witness, w.flag ≠ 0
  witnesses_length : ∀ w ∈ tx.witness, w.witnesses.length = tx.inputs.length
  stack_le : ∀ w ∈ tx.witness, ∀ s ∈ w.witnesses, s.length ≤ Cursor.maxItems
  item_le : ∀ w ∈ tx.witness, ∀ s ∈ w.witnesses, ∀ item ∈ s, item.length ≤ Cursor.maxItems

theorem WithinLimits.parsable {tx : WireTx} (h : tx.WithinLimits) : tx.Parsable where
  inputs_ne_nil _ := h.inputs_ne_nil
  inputs_le := h.inputs_le
  outputs_le := h.outputs_le
  scriptSig_le := h.scriptSig_le
  scriptPubkey_le := h.scriptPubkey_le
  value_le := h.value_le
  flag_ne := h.flag_ne
  witnesses_length := h.witnesses_length
  stack_le := h.stack_le
  item_le := h.item_le

end WireTx

/-! ## The numbers behind the `u32` fields -/

/-- The `u32` fields of a row, read as numbers. -/
def TxRow.numbers (r : TxRow) : List Nat :=
  [r.txIndex.toNat, r.size.toNat, r.weight.toNat, r.inputCount.toNat, r.outputCount.toNat]

def InputRow.numbers (r : InputRow) : List Nat :=
  [r.txIndex.toNat, r.inputIndex.toNat, r.scriptSigLen.toNat, r.witnessItems.toNat,
    r.witnessBytes.toNat]

def OutputRow.numbers (r : OutputRow) : List Nat :=
  [r.txIndex.toNat, r.outputIndex.toNat, r.scriptPubkeyLen.toNat]

/-- The exact positions, lengths, counts and totals the rows should hold. -/
def WireTx.txNumbers (index : Nat) (tx : WireTx) : List Nat :=
  [index, tx.serialize.length, tx.weight, tx.inputs.length, tx.outputs.length]

def WireTx.inputNumbers (index : Nat) (tx : WireTx) (j : Nat) (i : WireInput) : List Nat :=
  [index, j, i.scriptSig.length, (tx.stack j).length, ((tx.stack j).map List.length).sum]

def WireTx.outputNumbers (index : Nat) (j : Nat) (o : WireOutput) : List Nat :=
  [index, j, o.scriptPubkey.length]

/-- A block payload: header, transaction count, transactions. -/
def blockBytes (header : Bytes 80) (txs : List WireTx) : List UInt8 :=
  header.toList ++ (compactSize txs.length ++ (txs.map WireTx.serialize).flatten)

end Bidx
