import Bidx.Lib.ColumnMajor
import Bidx.Store.Parquet

/-!
# The Parquet sink, column by column

The tables of `Store/Parquet` keep their rows as they are.  In the source a table is
a list of typed column builders made from a schema; a push appends its values to
columns given by number, and a full table is finished into a record batch, which
checks the columns against the schema and against each other.

A builder is the list of the values appended since it was last finished, and a
writer the list of the batches written.  Pushing a value to a column of another
type is a panic, as is a column number out of range.  Every table simulates the one
that keeps rows (`Represents`), whatever the batch size.
-/

namespace Bidx

namespace Columnar

open ColumnMajor

/-! ## Columns -/

inductive SinkError where
  | arrow
  | parquet
  | io
deriving DecidableEq

/-- The `DataType`s of the schemas. -/
inductive DataType where
  | uint32
  | uint64
  | int32
  | uint8
  | boolean
  | fixedSizeBinary (width : Nat)
deriving DecidableEq

structure Field where
  name : String
  dataType : DataType
  nullable : Bool
deriving DecidableEq

/-- `fbin32`. -/
def fbin32 (name : String) : Field := ⟨name, .fixedSizeBinary 32, false⟩

/-- A value, under the builder it is meant for. -/
inductive Cell where
  | u32 (v : UInt32)
  | u64 (v : UInt64)
  | i32 (v : Int32)
  | u8 (v : UInt8)
  | bool (v : Bool)
  | bin32 (v : List UInt8)
deriving DecidableEq

/-- The column type a value fits. -/
def Cell.dataType : Cell → DataType
  | .u32 _ => .uint32
  | .u64 _ => .uint64
  | .i32 _ => .int32
  | .u8 _ => .uint8
  | .bool _ => .boolean
  | .bin32 v => .fixedSizeBinary v.length

/-- A column builder, and the array it is finished into. -/
inductive Col where
  | u32 (b : List UInt32)
  | u64 (b : List UInt64)
  | i32 (b : List Int32)
  | u8 (b : List UInt8)
  | bool (b : List Bool)
  | bin32 (width : Nat) (b : List (List UInt8))

namespace Col

/-- The builder `EntityTable::new` makes for a column type. -/
def new : DataType → Col
  | .uint32 => .u32 []
  | .uint64 => .u64 []
  | .int32 => .i32 []
  | .uint8 => .u8 []
  | .boolean => .bool []
  | .fixedSizeBinary width => .bin32 width []

def dataType : Col → DataType
  | .u32 _ => .uint32
  | .u64 _ => .uint64
  | .i32 _ => .int32
  | .u8 _ => .uint8
  | .bool _ => .boolean
  | .bin32 width _ => .fixedSizeBinary width

def values : Col → List Cell
  | .u32 b => b.map .u32
  | .u64 b => b.map .u64
  | .i32 b => b.map .i32
  | .u8 b => b.map .u8
  | .bool b => b.map .bool
  | .bin32 _ b => b.map .bin32

/-- `push!` and `push_bin!` on one column: the builder has to be the value's, and a
binary value has to have the column's width. -/
def append : Col → Cell → Except (Stop SinkError) Col
  | .u32 b, .u32 v => .ok (.u32 (b ++ [v]))
  | .u64 b, .u64 v => .ok (.u64 (b ++ [v]))
  | .i32 b, .i32 v => .ok (.i32 (b ++ [v]))
  | .u8 b, .u8 v => .ok (.u8 (b ++ [v]))
  | .bool b, .bool v => .ok (.bool (b ++ [v]))
  | .bin32 width b, .bin32 v =>
      if v.length = width then .ok (.bin32 width (b ++ [v])) else .error (.error .arrow)
  | _, _ => .error .panic

/-- `Col::finish`: the array, and the builder afterwards. -/
def finish (col : Col) : Col × Col := (col, new col.dataType)

@[simp] theorem values_new (ty : DataType) : (new ty).values = [] := by
  cases ty <;> rfl

@[simp] theorem dataType_new (ty : DataType) : (new ty).dataType = ty := by
  cases ty <;> rfl

/-- A value of the column's type is appended. -/
theorem append_eq {col : Col} {v : Cell} (h : v.dataType = col.dataType) :
    ∃ col', col.append v = .ok col' ∧ col'.dataType = col.dataType ∧
      col'.values = col.values ++ [v] := by
  cases col <;> cases v <;> simp [dataType, Cell.dataType] at h <;>
    simp [append, h, dataType, values]

end Col

/-! ## Schemas -/

def blocksSchema : List Field := [
  ⟨"height", .uint32, false⟩,
  fbin32 "hash",
  fbin32 "prev_hash",
  fbin32 "merkle_root",
  ⟨"time", .uint32, false⟩,
  ⟨"bits", .uint32, false⟩,
  ⟨"nonce", .uint32, false⟩,
  ⟨"version", .int32, false⟩,
  ⟨"tx_count", .uint32, false⟩,
  ⟨"size", .uint32, false⟩,
  ⟨"weight", .uint32, false⟩,
  ⟨"total_fee", .uint64, false⟩,
  ⟨"coinbase_value", .uint64, false⟩]

def transactionsSchema : List Field := [
  ⟨"height", .uint32, false⟩,
  ⟨"tx_index", .uint32, false⟩,
  fbin32 "txid",
  ⟨"version", .int32, false⟩,
  ⟨"locktime", .uint32, false⟩,
  ⟨"size", .uint32, false⟩,
  ⟨"weight", .uint32, false⟩,
  ⟨"fee", .uint64, false⟩,
  ⟨"input_count", .uint32, false⟩,
  ⟨"output_count", .uint32, false⟩,
  ⟨"has_witness", .boolean, false⟩]

def inputsSchema : List Field := [
  ⟨"height", .uint32, false⟩,
  ⟨"tx_index", .uint32, false⟩,
  ⟨"input_index", .uint32, false⟩,
  fbin32 "txid",
  fbin32 "prev_txid",
  ⟨"prev_vout", .uint32, false⟩,
  ⟨"script_sig_len", .uint32, false⟩,
  ⟨"sequence", .uint32, false⟩,
  ⟨"witness_items", .uint32, false⟩,
  ⟨"witness_bytes", .uint32, false⟩,
  ⟨"is_coinbase", .boolean, false⟩]

def outputsSchema : List Field := [
  ⟨"height", .uint32, false⟩,
  ⟨"tx_index", .uint32, false⟩,
  ⟨"output_index", .uint32, false⟩,
  fbin32 "txid",
  ⟨"value_sat", .uint64, false⟩,
  ⟨"script_pubkey_len", .uint32, false⟩,
  ⟨"script_type", .uint8, false⟩,
  fbin32 "address_hash"]

def spendsSchema : List Field := [
  ⟨"height", .uint32, false⟩,
  ⟨"spending_tx_index", .uint32, false⟩,
  ⟨"spending_input_index", .uint32, false⟩,
  fbin32 "spending_txid",
  fbin32 "spent_txid",
  ⟨"spent_vout", .uint32, false⟩,
  ⟨"spent_value_sat", .uint64, false⟩,
  ⟨"spent_script_type", .uint8, false⟩,
  fbin32 "spent_address_hash",
  ⟨"spent_height", .uint32, false⟩]

/-! ## Tables and record batches -/

/-- What `RecordBatch::try_new` lets through: columns of the schema's types and of one
length. -/
structure RecordBatch where
  schema : List Field
  columns : List Col
  rowCount : Nat
  types_eq : columns.map Col.dataType = schema.map Field.dataType
  aligned : ∀ col ∈ columns, col.values.length = rowCount

/-- `RecordBatch::try_new`. -/
def RecordBatch.tryNew (schema : List Field) (columns : List Col) :
    Except (Stop SinkError) RecordBatch :=
  match columns.head? with
  | none => .error (.error .arrow)
  | some first =>
      if h : columns.map Col.dataType = schema.map Field.dataType ∧
          ∀ col ∈ columns, col.values.length = first.values.length then
        .ok ⟨schema, columns, first.values.length, h.1, h.2⟩
      else
        .error (.error .arrow)

/-- The rows of a batch, each value under the name of its column. -/
def RecordBatch.rows (b : RecordBatch) : List (List (String × Cell)) :=
  (toRows b.rowCount (b.columns.map Col.values)).map fun row => (b.schema.map Field.name).zip row

structure EntityTable where
  schema : List Field
  cols : List Col
  buffered : Nat

namespace EntityTable

/-- `EntityTable::new`. -/
def new (schema : List Field) : EntityTable where
  schema := schema
  cols := schema.map fun f => Col.new f.dataType
  buffered := 0

/-- `take_batch`: the batch, and the table afterwards. -/
def takeBatch (t : EntityTable) : Except (Stop SinkError) (RecordBatch × EntityTable) :=
  let arrays := t.cols.map fun col => col.finish.1
  let t := { t with cols := t.cols.map fun col => col.finish.2, buffered := 0 }
  (RecordBatch.tryNew t.schema arrays).map fun b => (b, t)

end EntityTable

/-- Append a value to the column of a number. -/
def pushCell (cols : List Col) (push : Nat × Cell) : Except (Stop SinkError) (List Col) :=
  match cols[push.1]? with
  | none => .error .panic
  | some col => (col.append push.2).map fun col => cols.set push.1 col

/-- An entity's table and its writer, the batches written so far. -/
structure EntityFile where
  writer : List RecordBatch
  table : EntityTable

namespace EntityFile

/-- Take a batch and write it. -/
def writeBatch (f : EntityFile) : Except (Stop SinkError) EntityFile :=
  match f.table.takeBatch with
  | .error e => .error e
  | .ok (b, table) => .ok ⟨f.writer ++ [b], table⟩

/-- The body of the five `push_*`, which differ in the values they append and in the
columns they append them to. -/
def push (batchSize : Nat) (f : EntityFile) (pushes : List (Nat × Cell)) :
    Except (Stop SinkError) EntityFile :=
  match pushes.foldlM pushCell f.table.cols with
  | .error e => .error e
  | .ok cols =>
      let f := { f with table := { f.table with cols, buffered := f.table.buffered + 1 } }
      if batchSize ≤ f.table.buffered then f.writeBatch else .ok f

/-- What `finish` does for one entity: the batches in the closed file. -/
def finish (f : EntityFile) : Except (Stop SinkError) (List RecordBatch) :=
  if 0 < f.table.buffered then f.writeBatch.map EntityFile.writer else .ok f.writer

end EntityFile

/-! ## The sink -/

structure ParquetSink where
  cfg : SinkConfig
  blocks : EntityFile
  txs : EntityFile
  inputs : EntityFile
  outputs : EntityFile
  spends : EntityFile

/-- The batches in the five closed files of a part. -/
structure PartFiles where
  blocks : List RecordBatch
  txs : List RecordBatch
  inputs : List RecordBatch
  outputs : List RecordBatch
  spends : List RecordBatch

def blockPushes (r : BlockRow) : List (Nat × Cell) := [
  (0, .u32 r.height),
  (1, .bin32 r.hash.toList),
  (2, .bin32 r.prevHash.toList),
  (3, .bin32 r.merkleRoot.toList),
  (4, .u32 r.time),
  (5, .u32 r.bits),
  (6, .u32 r.nonce),
  (7, .i32 r.version),
  (8, .u32 r.txCount),
  (9, .u32 r.size),
  (10, .u32 r.weight),
  (11, .u64 r.totalFee),
  (12, .u64 r.coinbaseValue)]

def txPushes (r : TxRow) : List (Nat × Cell) := [
  (0, .u32 r.height),
  (1, .u32 r.txIndex),
  (2, .bin32 r.txid.toList),
  (3, .i32 r.version),
  (4, .u32 r.locktime),
  (5, .u32 r.size),
  (6, .u32 r.weight),
  (7, .u64 r.fee),
  (8, .u32 r.inputCount),
  (9, .u32 r.outputCount),
  (10, .bool r.hasWitness)]

def inputPushes (r : InputRow) : List (Nat × Cell) := [
  (0, .u32 r.height),
  (1, .u32 r.txIndex),
  (2, .u32 r.inputIndex),
  (3, .bin32 r.txid.toList),
  (4, .bin32 r.prevTxid.toList),
  (5, .u32 r.prevVout),
  (6, .u32 r.scriptSigLen),
  (7, .u32 r.sequence),
  (8, .u32 r.witnessItems),
  (9, .u32 r.witnessBytes),
  (10, .bool r.isCoinbase)]

def outputPushes (r : OutputRow) : List (Nat × Cell) := [
  (0, .u32 r.height),
  (1, .u32 r.txIndex),
  (2, .u32 r.outputIndex),
  (3, .bin32 r.txid.toList),
  (4, .u64 r.valueSat),
  (5, .u32 r.scriptPubkeyLen),
  (6, .u8 r.scriptType),
  (7, .bin32 r.addressHash.toList)]

def spendPushes (r : SpendRow) : List (Nat × Cell) := [
  (0, .u32 r.height),
  (1, .u32 r.spendingTxIndex),
  (2, .u32 r.spendingInputIndex),
  (3, .bin32 r.spendingTxid.toList),
  (4, .bin32 r.spentTxid.toList),
  (5, .u32 r.spentVout),
  (6, .u64 r.spentValueSat),
  (7, .u8 r.spentScriptType),
  (8, .bin32 r.spentAddressHash.toList),
  (9, .u32 r.spentHeight)]

namespace ParquetSink

/-- `ParquetSink::create`. -/
def create (cfg : SinkConfig) : ParquetSink where
  cfg := cfg
  blocks := ⟨[], .new blocksSchema⟩
  txs := ⟨[], .new transactionsSchema⟩
  inputs := ⟨[], .new inputsSchema⟩
  outputs := ⟨[], .new outputsSchema⟩
  spends := ⟨[], .new spendsSchema⟩

def pushBlock (s : ParquetSink) (r : BlockRow) : Except (Stop SinkError) ParquetSink :=
  (s.blocks.push s.cfg.batchSize (blockPushes r)).map fun f => { s with blocks := f }

def pushTx (s : ParquetSink) (r : TxRow) : Except (Stop SinkError) ParquetSink :=
  (s.txs.push s.cfg.batchSize (txPushes r)).map fun f => { s with txs := f }

def pushInput (s : ParquetSink) (r : InputRow) : Except (Stop SinkError) ParquetSink :=
  (s.inputs.push s.cfg.batchSize (inputPushes r)).map fun f => { s with inputs := f }

def pushOutput (s : ParquetSink) (r : OutputRow) : Except (Stop SinkError) ParquetSink :=
  (s.outputs.push s.cfg.batchSize (outputPushes r)).map fun f => { s with outputs := f }

def pushSpend (s : ParquetSink) (r : SpendRow) : Except (Stop SinkError) ParquetSink :=
  (s.spends.push s.cfg.batchSize (spendPushes r)).map fun f => { s with spends := f }

/-- `finish`. -/
def finish (s : ParquetSink) : Except (Stop SinkError) PartFiles := do
  let blocks ← s.blocks.finish
  let txs ← s.txs.finish
  let inputs ← s.inputs.finish
  let outputs ← s.outputs.finish
  let spends ← s.spends.finish
  return { blocks, txs, inputs, outputs, spends }

end ParquetSink

/-! ## What the tables are for -/

/-- Values numbered from `k` on. -/
def numbered : Nat → List Cell → List (Nat × Cell)
  | _, [] => []
  | k, v :: vs => (k, v) :: numbered (k + 1) vs

/-- An entity as it is meant: its schema, what a push appends, and the fields of a
row under their names.  The values are appended column by column in the order of the
schema, each to the column that bears its field's name and has its type. -/
structure Entity (α : Type) where
  schema : List Field
  pushes : α → List (Nat × Cell)
  fields : α → List (String × Cell)
  schema_ne_nil : schema ≠ []
  pushes_eq : ∀ r, pushes r = numbered 0 ((fields r).map Prod.snd)
  names_eq : ∀ r, (fields r).map Prod.fst = schema.map Field.name
  types_eq : ∀ r, (fields r).map (fun f => f.2.dataType) = schema.map Field.dataType

def blocksEntity : Entity BlockRow where
  schema := blocksSchema
  pushes := blockPushes
  fields r := [
    ("height", .u32 r.height),
    ("hash", .bin32 r.hash.toList),
    ("prev_hash", .bin32 r.prevHash.toList),
    ("merkle_root", .bin32 r.merkleRoot.toList),
    ("time", .u32 r.time),
    ("bits", .u32 r.bits),
    ("nonce", .u32 r.nonce),
    ("version", .i32 r.version),
    ("tx_count", .u32 r.txCount),
    ("size", .u32 r.size),
    ("weight", .u32 r.weight),
    ("total_fee", .u64 r.totalFee),
    ("coinbase_value", .u64 r.coinbaseValue)]
  schema_ne_nil := by simp [blocksSchema]
  pushes_eq _ := rfl
  names_eq _ := rfl
  types_eq r := by simp [blocksSchema, fbin32, Cell.dataType]

def txsEntity : Entity TxRow where
  schema := transactionsSchema
  pushes := txPushes
  fields r := [
    ("height", .u32 r.height),
    ("tx_index", .u32 r.txIndex),
    ("txid", .bin32 r.txid.toList),
    ("version", .i32 r.version),
    ("locktime", .u32 r.locktime),
    ("size", .u32 r.size),
    ("weight", .u32 r.weight),
    ("fee", .u64 r.fee),
    ("input_count", .u32 r.inputCount),
    ("output_count", .u32 r.outputCount),
    ("has_witness", .bool r.hasWitness)]
  schema_ne_nil := by simp [transactionsSchema]
  pushes_eq _ := rfl
  names_eq _ := rfl
  types_eq r := by simp [transactionsSchema, fbin32, Cell.dataType]

def inputsEntity : Entity InputRow where
  schema := inputsSchema
  pushes := inputPushes
  fields r := [
    ("height", .u32 r.height),
    ("tx_index", .u32 r.txIndex),
    ("input_index", .u32 r.inputIndex),
    ("txid", .bin32 r.txid.toList),
    ("prev_txid", .bin32 r.prevTxid.toList),
    ("prev_vout", .u32 r.prevVout),
    ("script_sig_len", .u32 r.scriptSigLen),
    ("sequence", .u32 r.sequence),
    ("witness_items", .u32 r.witnessItems),
    ("witness_bytes", .u32 r.witnessBytes),
    ("is_coinbase", .bool r.isCoinbase)]
  schema_ne_nil := by simp [inputsSchema]
  pushes_eq _ := rfl
  names_eq _ := rfl
  types_eq r := by simp [inputsSchema, fbin32, Cell.dataType]

def outputsEntity : Entity OutputRow where
  schema := outputsSchema
  pushes := outputPushes
  fields r := [
    ("height", .u32 r.height),
    ("tx_index", .u32 r.txIndex),
    ("output_index", .u32 r.outputIndex),
    ("txid", .bin32 r.txid.toList),
    ("value_sat", .u64 r.valueSat),
    ("script_pubkey_len", .u32 r.scriptPubkeyLen),
    ("script_type", .u8 r.scriptType),
    ("address_hash", .bin32 r.addressHash.toList)]
  schema_ne_nil := by simp [outputsSchema]
  pushes_eq _ := rfl
  names_eq _ := rfl
  types_eq r := by simp [outputsSchema, fbin32, Cell.dataType]

def spendsEntity : Entity SpendRow where
  schema := spendsSchema
  pushes := spendPushes
  fields r := [
    ("height", .u32 r.height),
    ("spending_tx_index", .u32 r.spendingTxIndex),
    ("spending_input_index", .u32 r.spendingInputIndex),
    ("spending_txid", .bin32 r.spendingTxid.toList),
    ("spent_txid", .bin32 r.spentTxid.toList),
    ("spent_vout", .u32 r.spentVout),
    ("spent_value_sat", .u64 r.spentValueSat),
    ("spent_script_type", .u8 r.spentScriptType),
    ("spent_address_hash", .bin32 r.spentAddressHash.toList),
    ("spent_height", .u32 r.spentHeight)]
  schema_ne_nil := by simp [spendsSchema]
  pushes_eq _ := rfl
  names_eq _ := rfl
  types_eq r := by simp [spendsSchema, fbin32, Cell.dataType]

/-! ## One push -/

/-- Values of the columns' types go to the columns' ends, one to each. -/
theorem foldlM_pushCell (pre suf : List Col) {vs : List Cell}
    (h : vs.map Cell.dataType = suf.map Col.dataType) :
    ∃ suf', (numbered pre.length vs).foldlM pushCell (pre ++ suf) = .ok (pre ++ suf') ∧
      suf'.map Col.dataType = suf.map Col.dataType ∧
      suf'.map Col.values = appendRow (suf.map Col.values) vs := by
  induction vs generalizing pre suf with
  | nil =>
      obtain rfl : suf = [] := by simpa using h.symm
      exact ⟨[], rfl, rfl, rfl⟩
  | cons v vs ih =>
      cases suf with
      | nil => simp at h
      | cons col suf =>
          simp only [List.map_cons, List.cons_eq_cons] at h
          obtain ⟨col', happend, htype, hvalues⟩ := Col.append_eq h.1
          obtain ⟨suf', hfold, htypes, hrest⟩ := ih (pre ++ [col']) suf h.2
          have hpush : pushCell (pre ++ col :: suf) (pre.length, v) =
              .ok ((pre ++ [col']) ++ suf) := by
            simp [pushCell, happend, Except.map]
          refine ⟨col' :: suf', ?_, by rw [List.map_cons, htype, htypes, List.map_cons], ?_⟩
          · rw [List.length_append, List.length_singleton, List.append_assoc pre [col'] suf'] at hfold
            rw [numbered, List.foldlM_cons, hpush]
            exact hfold
          · rw [List.map_cons, hvalues, hrest]
            rfl

theorem RecordBatch.tryNew_eq {schema : List Field} {columns : List Col} {count : Nat}
    (hne : columns ≠ []) (htypes : columns.map Col.dataType = schema.map Field.dataType)
    (haligned : ∀ col ∈ columns, col.values.length = count) :
    RecordBatch.tryNew schema columns = .ok ⟨schema, columns, count, htypes, haligned⟩ := by
  obtain ⟨first, rest, rfl⟩ := List.exists_cons_of_ne_nil hne
  obtain rfl := haligned first List.mem_cons_self
  rw [RecordBatch.tryNew, List.head?_cons]
  exact dif_pos ⟨htypes, haligned⟩

/-! ## Tables of columns simulate tables of rows -/

section Simulation

variable {α : Type} {e : Entity α} {t : Bidx.EntityTable α} {f : EntityFile}

/-- The values of a row, in the order of the columns. -/
def Entity.cells (e : Entity α) (r : α) : List Cell := (e.fields r).map Prod.snd

theorem Entity.length_cells (e : Entity α) (r : α) : (e.cells r).length = e.schema.length := by
  have hnames := congrArg List.length (e.names_eq r)
  simpa [cells] using hnames

theorem Entity.zip_cells (e : Entity α) (r : α) :
    (e.schema.map Field.name).zip (e.cells r) = e.fields r := by
  rw [← e.names_eq r, cells]
  exact (List.zip_of_prod rfl rfl).symm

/-- The columns hold the buffered rows of `t`, and the written batches its written
ones. -/
structure Represents (e : Entity α) (t : Bidx.EntityTable α) (f : EntityFile) : Prop where
  schema_eq : f.table.schema = e.schema
  types_eq : f.table.cols.map Col.dataType = e.schema.map Field.dataType
  cols_eq : f.table.cols.map Col.values = ofRows e.schema.length (t.buffered.map e.cells)
  buffered_eq : f.table.buffered = t.buffered.length
  written_eq : f.writer.flatMap RecordBatch.rows = t.written.map e.fields
  stored : ∀ b ∈ f.writer, b.schema = e.schema ∧ 0 < b.rowCount

theorem represents_new (e : Entity α) : Represents e .new ⟨[], .new e.schema⟩ where
  schema_eq := rfl
  types_eq := by simp [EntityTable.new]
  cols_eq := by
    rw [EntityTable.new, List.map_map]
    exact List.map_eq_replicate_iff.mpr fun f _ => Col.values_new f.dataType
  buffered_eq := rfl
  written_eq := rfl
  stored := by simp

theorem Entity.width_cells (e : Entity α) (rs : List α) :
    ∀ row ∈ rs.map e.cells, row.length = e.schema.length := by
  intro row hrow
  obtain ⟨r, -, rfl⟩ := List.mem_map.mp hrow
  exact e.length_cells r

/-- The columns of a table always have one length. -/
theorem Represents.aligned (h : Represents e t f) :
    ∀ col ∈ f.table.cols, col.values.length = t.buffered.length := by
  intro col hcol
  have hlengths := (ofRows_shape (e.width_cells t.buffered)).2
  rw [← h.cols_eq, List.length_map] at hlengths
  exact hlengths _ (List.mem_map_of_mem hcol)

theorem Represents.cols_ne_nil (h : Represents e t f) : f.table.cols ≠ [] := by
  intro hnil
  have htypes := h.types_eq
  rw [hnil] at htypes
  exact e.schema_ne_nil (List.map_eq_nil_iff.mp htypes.symm)

/-- Taking a batch of buffered rows succeeds and loses none. -/
theorem Represents.writeBatch (h : Represents e t f) (hne : t.buffered ≠ []) :
    ∃ f', f.writeBatch = .ok f' ∧ Represents e t.writeBatch f' := by
  have htypes : f.table.cols.map Col.dataType = f.table.schema.map Field.dataType := by
    rw [h.types_eq, h.schema_eq]
  have htake : f.table.takeBatch = .ok
      (⟨f.table.schema, f.table.cols, t.buffered.length, htypes, h.aligned⟩,
        { f.table with cols := f.table.cols.map fun col => col.finish.2, buffered := 0 }) := by
    have harrays : f.table.cols.map (fun col => col.finish.1) = f.table.cols := List.map_id _
    simp only [EntityTable.takeBatch, harrays]
    rw [RecordBatch.tryNew_eq h.cols_ne_nil htypes h.aligned]
    rfl
  refine ⟨_, by rw [EntityFile.writeBatch, htake], ?_⟩
  exact {
    schema_eq := h.schema_eq
    types_eq := by
      simp only [List.map_map, ← h.types_eq]
      exact List.map_congr_left fun col _ => Col.dataType_new col.dataType
    cols_eq := by
      have hlen := congrArg List.length h.types_eq
      rw [List.length_map, List.length_map] at hlen
      rw [List.map_map, ← hlen]
      exact List.map_eq_replicate_iff.mpr fun col _ => Col.values_new col.dataType
    buffered_eq := rfl
    written_eq := by
      have hrows : toRows t.buffered.length (f.table.cols.map Col.values) =
          t.buffered.map e.cells := by
        rw [h.cols_eq]
        simpa using toRows_ofRows (e.width_cells t.buffered)
      simp only [List.flatMap_append, h.written_eq, List.flatMap_singleton, RecordBatch.rows,
        hrows, h.schema_eq, List.map_map]
      rw [Bidx.EntityTable.writeBatch, List.map_append]
      congr 1
      exact List.map_congr_left fun r _ => e.zip_cells r
    stored := by
      intro b hb
      rcases List.mem_append.mp hb with hold | hnew
      · exact h.stored b hold
      · obtain rfl := List.mem_singleton.mp hnew
        exact ⟨h.schema_eq, List.length_pos_iff.mpr hne⟩ }

/-- A push succeeds and appends exactly its row. -/
theorem Represents.push (h : Represents e t f) (batchSize : Nat) (r : α) :
    ∃ f', f.push batchSize (e.pushes r) = .ok f' ∧ Represents e (t.push batchSize r) f' := by
  have hfit : (e.cells r).map Cell.dataType = f.table.cols.map Col.dataType := by
    rw [Entity.cells, List.map_map, h.types_eq, ← e.types_eq r]
    rfl
  obtain ⟨cols, hcols, htypes, hvalues⟩ := foldlM_pushCell [] f.table.cols hfit
  have hpush : (e.pushes r).foldlM pushCell f.table.cols = .ok cols := by
    rw [e.pushes_eq]
    exact hcols
  have hpushed : Represents e { t with buffered := t.buffered ++ [r] }
      { f with table := { f.table with cols, buffered := f.table.buffered + 1 } } := {
    schema_eq := h.schema_eq
    types_eq := by rw [htypes, h.types_eq]
    cols_eq := by rw [hvalues, h.cols_eq, List.map_append, List.map_singleton, ofRows_concat]
    buffered_eq := by rw [h.buffered_eq, List.length_append, List.length_singleton]
    written_eq := h.written_eq
    stored := h.stored }
  have hcount : f.table.buffered + 1 = (t.buffered ++ [r]).length := hpushed.buffered_eq
  simp only [EntityFile.push, hpush, Bidx.EntityTable.push, hcount]
  rw [hcount] at hpushed
  by_cases hfull : batchSize ≤ (t.buffered ++ [r]).length
  · rw [if_pos hfull, if_pos hfull]
    exact hpushed.writeBatch (List.append_ne_nil_of_right_ne_nil _ (List.cons_ne_nil r []))
  · rw [if_neg hfull, if_neg hfull]
    exact ⟨_, rfl, hpushed⟩

/-- The same with the file put back in its place in the sink. -/
theorem Represents.push_map (h : Represents e t f) {size size' : Nat} (hsize : size' = size)
    (r : α) (put : EntityFile → ParquetSink) :
    ∃ f', (f.push size' (e.pushes r)).map put = .ok (put f') ∧
      Represents e (t.push size r) f' := by
  obtain ⟨f', hpush, hf'⟩ := h.push size r
  refine ⟨f', ?_, hf'⟩
  rw [hsize, hpush]
  rfl

/-- An entity's closed file: batches of the schema, none of them empty, that hold the
rows in order with each field under its name. -/
structure Stores (e : Entity α) (rows : List α) (batches : List RecordBatch) : Prop where
  rows_eq : batches.flatMap RecordBatch.rows = rows.map e.fields
  schema_eq : ∀ b ∈ batches, b.schema = e.schema
  nonempty : ∀ b ∈ batches, 0 < b.rowCount
  aligned : ∀ b ∈ batches, ∀ col ∈ b.columns, col.values.length = b.rowCount

theorem Represents.stores (h : Represents e t f) (hempty : t.buffered = []) :
    Stores e t.rows f.writer where
  rows_eq := by rw [h.written_eq, Bidx.EntityTable.rows, hempty, List.append_nil]
  schema_eq b hb := (h.stored b hb).1
  nonempty b hb := (h.stored b hb).2
  aligned b _ := b.aligned

theorem Represents.finish (h : Represents e t f) :
    ∃ batches, f.finish = .ok batches ∧ Stores e t.rows batches := by
  rw [EntityFile.finish, h.buffered_eq]
  by_cases hbuffered : 0 < t.buffered.length
  · obtain ⟨f', hwrite, h'⟩ := h.writeBatch (List.length_pos_iff.mp hbuffered)
    rw [if_pos hbuffered, hwrite]
    refine ⟨f'.writer, rfl, ?_⟩
    have hrows : t.writeBatch.rows = t.rows := List.append_nil _
    rw [← hrows]
    exact h'.stores rfl
  · rw [if_neg hbuffered]
    exact ⟨f.writer, rfl, h.stores (List.length_eq_zero_iff.mp (by omega))⟩

end Simulation

/-! ## Runs of the sink -/

/-- A call of one of the five `push_*`. -/
inductive PushCall where
  | block (r : BlockRow)
  | tx (r : TxRow)
  | input (r : InputRow)
  | output (r : OutputRow)
  | spend (r : SpendRow)

namespace PushCall

def block? : PushCall → Option BlockRow
  | .block r => some r
  | _ => none

def tx? : PushCall → Option TxRow
  | .tx r => some r
  | _ => none

def input? : PushCall → Option InputRow
  | .input r => some r
  | _ => none

def output? : PushCall → Option OutputRow
  | .output r => some r
  | _ => none

def spend? : PushCall → Option SpendRow
  | .spend r => some r
  | _ => none

/-- The rows of each entity, in the order they are pushed in. -/
def rows (calls : List PushCall) : Rows where
  blocks := calls.filterMap block?
  txs := calls.filterMap tx?
  inputs := calls.filterMap input?
  outputs := calls.filterMap output?
  spends := calls.filterMap spend?

theorem rows_cons (call : PushCall) (calls : List PushCall) :
    rows (call :: calls) = rows [call] ++ rows calls := by
  ext1 <;> simp only [rows, ← List.singleton_append (l := calls), List.filterMap_append] <;> rfl

end PushCall

def ParquetSink.handle (s : ParquetSink) : PushCall → Except (Stop SinkError) ParquetSink
  | .block r => s.pushBlock r
  | .tx r => s.pushTx r
  | .input r => s.pushInput r
  | .output r => s.pushOutput r
  | .spend r => s.pushSpend r

/-- The batches in a part's files after the calls and `finish`. -/
def sinkFiles (cfg : SinkConfig) (calls : List PushCall) : Except (Stop SinkError) PartFiles := do
  let s ← calls.foldlM ParquetSink.handle (.create cfg)
  s.finish

/-- The same calls on the tables of rows. -/
def handleRows (a : Bidx.ParquetSink) : PushCall → Bidx.ParquetSink
  | .block r => a.pushBlock r
  | .tx r => a.pushTx r
  | .input r => a.pushInput r
  | .output r => a.pushOutput r
  | .spend r => a.pushSpend r

theorem rows_handleRows (a : Bidx.ParquetSink) (call : PushCall) :
    (handleRows a call).rows = a.rows ++ PushCall.rows [call] := by
  cases call <;> ext1 <;>
    simp [handleRows, Bidx.ParquetSink.pushBlock, Bidx.ParquetSink.pushTx,
      Bidx.ParquetSink.pushInput, Bidx.ParquetSink.pushOutput, Bidx.ParquetSink.pushSpend,
      Bidx.ParquetSink.rows, Bidx.EntityTable.rows_push, PushCall.rows, PushCall.block?,
      PushCall.tx?, PushCall.input?, PushCall.output?, PushCall.spend?]

theorem rows_foldl_handleRows (a : Bidx.ParquetSink) (calls : List PushCall) :
    (calls.foldl handleRows a).rows = a.rows ++ PushCall.rows calls := by
  induction calls generalizing a with
  | nil => exact (Rows.append_empty _).symm
  | cons call calls ih =>
      rw [List.foldl_cons, ih, rows_handleRows, Rows.append_assoc, ← PushCall.rows_cons]

/-- All five tables represent those of `a`. -/
structure SinkRepresents (a : Bidx.ParquetSink) (s : ParquetSink) : Prop where
  cfg_eq : s.cfg = a.cfg
  blocks : Represents blocksEntity a.blocks s.blocks
  txs : Represents txsEntity a.txs s.txs
  inputs : Represents inputsEntity a.inputs s.inputs
  outputs : Represents outputsEntity a.outputs s.outputs
  spends : Represents spendsEntity a.spends s.spends

section Runs

variable {a : Bidx.ParquetSink} {s : ParquetSink}

/-- No push fails, and each keeps the tables in step. -/
theorem SinkRepresents.handle (h : SinkRepresents a s) (call : PushCall) :
    ∃ s', s.handle call = .ok s' ∧ SinkRepresents (handleRows a call) s' := by
  have hsize : s.cfg.batchSize = a.cfg.batchSize := congrArg SinkConfig.batchSize h.cfg_eq
  cases call with
  | block r =>
      obtain ⟨f, hpush, hf⟩ := h.blocks.push_map hsize r fun f => { s with blocks := f }
      exact ⟨_, hpush, h.cfg_eq, hf, h.txs, h.inputs, h.outputs, h.spends⟩
  | tx r =>
      obtain ⟨f, hpush, hf⟩ := h.txs.push_map hsize r fun f => { s with txs := f }
      exact ⟨_, hpush, h.cfg_eq, h.blocks, hf, h.inputs, h.outputs, h.spends⟩
  | input r =>
      obtain ⟨f, hpush, hf⟩ := h.inputs.push_map hsize r fun f => { s with inputs := f }
      exact ⟨_, hpush, h.cfg_eq, h.blocks, h.txs, hf, h.outputs, h.spends⟩
  | output r =>
      obtain ⟨f, hpush, hf⟩ := h.outputs.push_map hsize r fun f => { s with outputs := f }
      exact ⟨_, hpush, h.cfg_eq, h.blocks, h.txs, h.inputs, hf, h.spends⟩
  | spend r =>
      obtain ⟨f, hpush, hf⟩ := h.spends.push_map hsize r fun f => { s with spends := f }
      exact ⟨_, hpush, h.cfg_eq, h.blocks, h.txs, h.inputs, h.outputs, hf⟩

theorem SinkRepresents.run (h : SinkRepresents a s) (calls : List PushCall) :
    ∃ s', calls.foldlM ParquetSink.handle s = .ok s' ∧
      SinkRepresents (calls.foldl handleRows a) s' := by
  induction calls generalizing a s with
  | nil => exact ⟨s, rfl, h⟩
  | cons call calls ih =>
      obtain ⟨s₁, hhandle, h₁⟩ := h.handle call
      obtain ⟨s', hrun, h'⟩ := ih h₁
      refine ⟨s', ?_, h'⟩
      rw [List.foldlM_cons, hhandle]
      exact hrun

/-- The five files of a part, against the rows pushed to them. -/
structure StoresAll (rows : Rows) (part : PartFiles) : Prop where
  blocks : Stores blocksEntity rows.blocks part.blocks
  txs : Stores txsEntity rows.txs part.txs
  inputs : Stores inputsEntity rows.inputs part.inputs
  outputs : Stores outputsEntity rows.outputs part.outputs
  spends : Stores spendsEntity rows.spends part.spends

theorem SinkRepresents.finish (h : SinkRepresents a s) :
    ∃ part, s.finish = .ok part ∧ StoresAll a.rows part := by
  obtain ⟨blocks, hblocks, hblocks'⟩ := h.blocks.finish
  obtain ⟨txs, htxs, htxs'⟩ := h.txs.finish
  obtain ⟨inputs, hinputs, hinputs'⟩ := h.inputs.finish
  obtain ⟨outputs, houtputs, houtputs'⟩ := h.outputs.finish
  obtain ⟨spends, hspends, hspends'⟩ := h.spends.finish
  refine ⟨⟨blocks, txs, inputs, outputs, spends⟩, ?_,
    ⟨hblocks', htxs', hinputs', houtputs', hspends'⟩⟩
  rw [ParquetSink.finish, hblocks, htxs, hinputs, houtputs, hspends]
  rfl

end Runs

theorem sinkRepresents_create (cfg : SinkConfig) (dir : OutDir) (n : Nat) :
    SinkRepresents (Bidx.ParquetSink.create dir n cfg).2 (.create cfg) where
  cfg_eq := rfl
  blocks := represents_new blocksEntity
  txs := represents_new txsEntity
  inputs := represents_new inputsEntity
  outputs := represents_new outputsEntity
  spends := represents_new spendsEntity

/-- Whatever the batch size and the order of the calls, the sink runs to its end, and
the files hold every pushed row once, in order, field by field. -/
theorem sinkFiles_lossless (cfg : SinkConfig) (calls : List PushCall) :
    ∃ part, sinkFiles cfg calls = .ok part ∧ StoresAll (PushCall.rows calls) part := by
  obtain ⟨s, hrun, hs⟩ := (sinkRepresents_create cfg .fresh 0).run calls
  obtain ⟨part, hfinish, hstores⟩ := hs.finish
  refine ⟨part, ?_, ?_⟩
  · rw [sinkFiles, hrun]
    exact hfinish
  · rwa [rows_foldl_handleRows] at hstores

end Columnar

end Bidx
