import Mathlib.Logic.Function.Basic
import Bidx.Core.Types

/-!
# The Parquet sink

One part is five files, one for each entity.  `ParquetSink.create` opens them with
`File::create`, which empties a file that is there; rows are buffered and handed to
the file's writer in record batches; `finish` flushes the last batch and closes the
files.  A file can be read once it is closed, so a part is given by the rows a reader
finds in its five files: none in a missing file, in an emptied one, and in one that
is still open.

Writing succeeds here; where a caller can see a write fail, the caller's model says
so.
-/

namespace Bidx

/-! ## Rows of the five entities -/

/-- Rows of the five entities. -/
@[ext]
structure Rows where
  blocks : List BlockRow
  txs : List TxRow
  inputs : List InputRow
  outputs : List OutputRow
  spends : List SpendRow
deriving DecidableEq

namespace Rows

def empty : Rows := ⟨[], [], [], [], []⟩

instance : Append Rows where
  append r r' := ⟨r.blocks ++ r'.blocks, r.txs ++ r'.txs, r.inputs ++ r'.inputs,
    r.outputs ++ r'.outputs, r.spends ++ r'.spends⟩

@[simp] theorem blocks_append (r r' : Rows) : (r ++ r').blocks = r.blocks ++ r'.blocks := rfl

@[simp] theorem txs_append (r r' : Rows) : (r ++ r').txs = r.txs ++ r'.txs := rfl

@[simp] theorem inputs_append (r r' : Rows) : (r ++ r').inputs = r.inputs ++ r'.inputs := rfl

@[simp] theorem outputs_append (r r' : Rows) : (r ++ r').outputs = r.outputs ++ r'.outputs := rfl

@[simp] theorem spends_append (r r' : Rows) : (r ++ r').spends = r.spends ++ r'.spends := rfl

@[simp] theorem empty_append (r : Rows) : empty ++ r = r := rfl

@[simp] theorem append_empty (r : Rows) : r ++ empty = r := by
  ext1 <;> simp [empty]

theorem append_assoc (r r' r'' : Rows) : r ++ r' ++ r'' = r ++ (r' ++ r'') := by
  ext1 <;> simp

/-- All rows of a list, in order. -/
def flatten (rs : List Rows) : Rows := rs.foldr (· ++ ·) empty

@[simp] theorem flatten_nil : flatten [] = empty := rfl

theorem flatten_append (rs rs' : List Rows) : flatten (rs ++ rs') = flatten rs ++ flatten rs' := by
  induction rs with
  | nil => rfl
  | cons r rs ih =>
      show r ++ flatten (rs ++ rs') = (r ++ flatten rs) ++ flatten rs'
      rw [ih, append_assoc]

theorem flatten_concat (rs : List Rows) (r : Rows) : flatten (rs ++ [r]) = flatten rs ++ r := by
  rw [flatten_append]
  show flatten rs ++ (r ++ empty) = _
  rw [append_empty]

theorem blocks_flatten (rs : List Rows) : (flatten rs).blocks = rs.flatMap Rows.blocks := by
  induction rs with
  | nil => rfl
  | cons r rs ih =>
      show r.blocks ++ (flatten rs).blocks = _
      rw [ih, List.flatMap_cons]

theorem spends_flatten (rs : List Rows) : (flatten rs).spends = rs.flatMap Rows.spends := by
  induction rs with
  | nil => rfl
  | cons r rs ih =>
      show r.spends ++ (flatten rs).spends = _
      rw [ih, List.flatMap_cons]

/-- The rows of a block and of its spends. -/
def ofBlock (block : FullBlock) (spends : List SpendRow) : Rows :=
  ⟨[block.blockRow], block.txs, block.inputs, block.outputs, spends⟩

/-- The same rows of every entity, in whatever order. -/
structure Perm (r r' : Rows) : Prop where
  blocks : r.blocks.Perm r'.blocks
  txs : r.txs.Perm r'.txs
  inputs : r.inputs.Perm r'.inputs
  outputs : r.outputs.Perm r'.outputs
  spends : r.spends.Perm r'.spends

theorem Perm.refl (r : Rows) : r.Perm r := ⟨.refl _, .refl _, .refl _, .refl _, .refl _⟩

end Rows

/-! ## Buffered tables -/

/-- An entity's file while it is open: the rows in written record batches and the
rows in the table's column builders. -/
structure EntityTable (α : Type) where
  written : List α
  buffered : List α

namespace EntityTable

variable {α : Type}

def new : EntityTable α := ⟨[], []⟩

/-- Hand the buffered rows to the writer as one record batch. -/
def writeBatch (t : EntityTable α) : EntityTable α := ⟨t.written ++ t.buffered, []⟩

/-- Append one row; a full batch is written. -/
def push (batchSize : Nat) (t : EntityTable α) (row : α) : EntityTable α :=
  let pushed := { t with buffered := t.buffered ++ [row] }
  if batchSize ≤ pushed.buffered.length then pushed.writeBatch else pushed

/-- The rows of the closed file. -/
def finish (t : EntityTable α) : List α :=
  if 0 < t.buffered.length then t.writeBatch.written else t.written

/-- The rows pushed so far. -/
def rows (t : EntityTable α) : List α := t.written ++ t.buffered

theorem rows_push (batchSize : Nat) (t : EntityTable α) (row : α) :
    (t.push batchSize row).rows = t.rows ++ [row] := by
  simp only [push, rows]
  split <;> simp [writeBatch]

theorem rows_foldl_push (batchSize : Nat) (t : EntityTable α) (rs : List α) :
    (rs.foldl (push batchSize) t).rows = t.rows ++ rs := by
  induction rs generalizing t with
  | nil => simp
  | cons row rs ih => rw [List.foldl_cons, ih, rows_push, List.append_assoc, List.singleton_append]

theorem finish_eq_rows (t : EntityTable α) : t.finish = t.rows := by
  unfold finish rows
  split
  · rfl
  · have hempty : t.buffered = [] := List.length_eq_zero_iff.mp (by omega)
    rw [hempty, List.append_nil]

end EntityTable

/-! ## The sink -/

/-- The rows a reader finds in each part of an output directory. -/
abbrev OutDir := Nat → Rows

/-- A directory without part files. -/
def OutDir.fresh : OutDir := fun _ => .empty

/-- The rows of the parts below `n`. -/
def OutDir.rowsBelow (dir : OutDir) (n : Nat) : Rows := .flatten ((List.range n).map dir)

/-- The same rows of every entity over all part files: `n` is above the last one. -/
def OutDir.SameRows (dir dir' : OutDir) : Prop :=
  ∃ n, (∀ p, n ≤ p → dir p = .empty ∧ dir' p = .empty) ∧
    (dir.rowsBelow n).Perm (dir'.rowsBelow n)

theorem OutDir.mem_rowsBelow {dir : OutDir} {n : Nat} {row : BlockRow} :
    row ∈ (dir.rowsBelow n).blocks ↔ ∃ p < n, row ∈ (dir p).blocks := by
  rw [rowsBelow, Rows.blocks_flatten, List.mem_flatMap]
  simp only [List.mem_map, List.mem_range]
  constructor
  · rintro ⟨_, ⟨p, hp, rfl⟩, hrow⟩
    exact ⟨p, hp, hrow⟩
  · rintro ⟨p, hp, hrow⟩
    exact ⟨_, ⟨p, hp, rfl⟩, hrow⟩

/-- A block row that one directory has and the other has not. -/
theorem OutDir.not_sameRows {dir dir' : OutDir} {p : Nat} {row : BlockRow}
    (hrow : row ∈ (dir' p).blocks) (hnot : ∀ q, row ∉ (dir q).blocks) : ¬dir.SameRows dir' := by
  rintro ⟨n, hempty, hperm⟩
  have hlt : p < n := by
    by_contra hge
    rw [(hempty p (Nat.le_of_not_lt hge)).2] at hrow
    contradiction
  obtain ⟨q, -, hmem⟩ := mem_rowsBelow.mp (hperm.blocks.mem_iff.mpr (mem_rowsBelow.mpr ⟨p, hlt, hrow⟩))
  exact hnot q hmem

structure SinkConfig where
  batchSize : Nat

/-- `SinkConfig::default`. -/
def SinkConfig.standard : SinkConfig := ⟨250000⟩

structure ParquetSink where
  cfg : SinkConfig
  part : Nat
  blocks : EntityTable BlockRow
  txs : EntityTable TxRow
  inputs : EntityTable InputRow
  outputs : EntityTable OutputRow
  spends : EntityTable SpendRow

namespace ParquetSink

/-- `ParquetSink::create`: the part's files are there, and empty. -/
def create (dir : OutDir) (part : Nat) (cfg : SinkConfig) : OutDir × ParquetSink :=
  (Function.update dir part .empty, ⟨cfg, part, .new, .new, .new, .new, .new⟩)

def pushBlock (s : ParquetSink) (r : BlockRow) : ParquetSink :=
  { s with blocks := s.blocks.push s.cfg.batchSize r }

def pushTx (s : ParquetSink) (r : TxRow) : ParquetSink :=
  { s with txs := s.txs.push s.cfg.batchSize r }

def pushInput (s : ParquetSink) (r : InputRow) : ParquetSink :=
  { s with inputs := s.inputs.push s.cfg.batchSize r }

def pushOutput (s : ParquetSink) (r : OutputRow) : ParquetSink :=
  { s with outputs := s.outputs.push s.cfg.batchSize r }

def pushSpend (s : ParquetSink) (r : SpendRow) : ParquetSink :=
  { s with spends := s.spends.push s.cfg.batchSize r }

/-- The five push loops over the rows of a block. -/
def pushRows (s : ParquetSink) (block : FullBlock) (spends : List SpendRow) : ParquetSink :=
  let s := s.pushBlock block.blockRow
  let s := block.txs.foldl pushTx s
  let s := block.inputs.foldl pushInput s
  let s := block.outputs.foldl pushOutput s
  spends.foldl pushSpend s

/-- `finish`: the part's files are closed. -/
def finish (s : ParquetSink) (dir : OutDir) : OutDir :=
  Function.update dir s.part
    ⟨s.blocks.finish, s.txs.finish, s.inputs.finish, s.outputs.finish, s.spends.finish⟩

/-- The rows pushed so far. -/
def rows (s : ParquetSink) : Rows :=
  ⟨s.blocks.rows, s.txs.rows, s.inputs.rows, s.outputs.rows, s.spends.rows⟩

@[simp] theorem rows_create (dir : OutDir) (part : Nat) (cfg : SinkConfig) :
    (create dir part cfg).2.rows = .empty := rfl

theorem finish_eq (s : ParquetSink) (dir : OutDir) :
    s.finish dir = Function.update dir s.part s.rows := by
  simp only [finish, EntityTable.finish_eq_rows]
  rfl

theorem foldl_pushTx (s : ParquetSink) (rs : List TxRow) :
    rs.foldl pushTx s = { s with txs := rs.foldl (EntityTable.push s.cfg.batchSize) s.txs } :=
  List.foldl_hom (fun t => { s with txs := t }) (fun _ _ => rfl)

theorem foldl_pushInput (s : ParquetSink) (rs : List InputRow) :
    rs.foldl pushInput s =
      { s with inputs := rs.foldl (EntityTable.push s.cfg.batchSize) s.inputs } :=
  List.foldl_hom (fun t => { s with inputs := t }) (fun _ _ => rfl)

theorem foldl_pushOutput (s : ParquetSink) (rs : List OutputRow) :
    rs.foldl pushOutput s =
      { s with outputs := rs.foldl (EntityTable.push s.cfg.batchSize) s.outputs } :=
  List.foldl_hom (fun t => { s with outputs := t }) (fun _ _ => rfl)

theorem foldl_pushSpend (s : ParquetSink) (rs : List SpendRow) :
    rs.foldl pushSpend s =
      { s with spends := rs.foldl (EntityTable.push s.cfg.batchSize) s.spends } :=
  List.foldl_hom (fun t => { s with spends := t }) (fun _ _ => rfl)

/-- Whatever the batch size, pushing a block's rows adds exactly these rows. -/
theorem rows_pushRows (s : ParquetSink) (block : FullBlock) (spends : List SpendRow) :
    (s.pushRows block spends).rows = s.rows ++ Rows.ofBlock block spends := by
  simp only [pushRows, foldl_pushTx, foldl_pushInput, foldl_pushOutput, foldl_pushSpend, pushBlock]
  ext1 <;> simp only [rows, EntityTable.rows_push, EntityTable.rows_foldl_push] <;> rfl

@[simp] theorem part_pushRows (s : ParquetSink) (block : FullBlock) (spends : List SpendRow) :
    (s.pushRows block spends).part = s.part := by
  simp only [pushRows, foldl_pushTx, foldl_pushInput, foldl_pushOutput, foldl_pushSpend, pushBlock]

end ParquetSink

end Bidx
