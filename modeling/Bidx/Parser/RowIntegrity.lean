import Bidx.Parser.BlockWeight
import Bidx.Parser.ParserBounds
import Bidx.Store.Accounting

/-!
# The rows of an accepted block

The rows of a block name each other: transaction rows are numbered from zero, input
and output rows stand in the order of their transactions, numbered from zero inside
each, and carry its height and txid.  So every row belongs to a transaction of the
block, and `apply_block`, which indexes the fees by these numbers, goes through.
-/

namespace Bidx

open KeyValue

/-- What an input or output row says of its place: its transaction and its number in it. -/
structure RowPlace where
  height : UInt32
  txIndex : UInt32
  txid : Bytes 32
  position : UInt32

def InputRow.place (inp : InputRow) : RowPlace :=
  ⟨inp.height, inp.txIndex, inp.txid, inp.inputIndex⟩

def OutputRow.place (out : OutputRow) : RowPlace :=
  ⟨out.height, out.txIndex, out.txid, out.outputIndex⟩

/-- The places of the first `count` rows of a transaction. -/
def TxRow.places (tx : TxRow) (count : UInt32) : List RowPlace :=
  (List.range count.toNat).map fun j => ⟨tx.height, tx.txIndex, tx.txid, UInt32.ofNat j⟩

/-- The row that the transaction index names is the transaction row of the place. -/
def RowPlace.Names (place : RowPlace) (txs : List TxRow) : Prop :=
  ∃ tx, txs[place.txIndex.toNat]? = some tx ∧ place.height = tx.height ∧ place.txid = tx.txid

/-- The rows of a block at a height fit together. -/
structure RowIntegrity (height : UInt32) (block : FullBlock) : Prop where
  indices : block.txs.map (fun tx => tx.txIndex.toNat) = List.range block.blockRow.txCount.toNat
  heights : ∀ tx ∈ block.txs, tx.height = height
  inputs : block.inputs.map InputRow.place = block.txs.flatMap fun tx => tx.places tx.inputCount
  outputs : block.outputs.map OutputRow.place = block.txs.flatMap fun tx => tx.places tx.outputCount

namespace RowIntegrity

variable {height : UInt32} {block : FullBlock}

theorem length_txs (h : RowIntegrity height block) :
    block.txs.length = block.blockRow.txCount.toNat := by
  have hlen := congrArg List.length h.indices
  rwa [List.length_map, List.length_range] at hlen

theorem getElem?_txIndex (h : RowIntegrity height block) {tx : TxRow} (htx : tx ∈ block.txs) :
    block.txs[tx.txIndex.toNat]? = some tx := by
  obtain ⟨i, hi, rfl⟩ := List.getElem_of_mem htx
  have hindex : block.txs[i].txIndex.toNat = i := by
    have hget := congrArg (fun xs => xs[i]?) h.indices
    have hrange : i < block.blockRow.txCount.toNat := h.length_txs ▸ hi
    simp only [List.getElem?_map, List.getElem?_eq_getElem hi, Option.map_some,
      List.getElem?_range hrange] at hget
    exact Option.some.inj hget
  rw [hindex, List.getElem?_eq_getElem hi]

/-- Keys that are those of the transactions name them. -/
theorem names_of_mem (h : RowIntegrity height block) {count : TxRow → UInt32} {place : RowPlace}
    (hplace : place ∈ block.txs.flatMap fun tx => tx.places (count tx)) : place.Names block.txs := by
  obtain ⟨tx, htx, hplace⟩ := List.mem_flatMap.mp hplace
  obtain ⟨j, -, rfl⟩ := List.mem_map.mp hplace
  exact ⟨tx, h.getElem?_txIndex htx, rfl, rfl⟩

theorem names_input (h : RowIntegrity height block) {inp : InputRow} (hinp : inp ∈ block.inputs) :
    inp.place.Names block.txs :=
  h.names_of_mem (h.inputs ▸ List.mem_map_of_mem hinp)

theorem names_output (h : RowIntegrity height block) {out : OutputRow}
    (hout : out ∈ block.outputs) : out.place.Names block.txs :=
  h.names_of_mem (h.outputs ▸ List.mem_map_of_mem hout)

theorem rowsInRange (h : RowIntegrity height block) :
    RowsInRange block.txs block.inputs block.outputs where
  inputs := by
    intro inp hinp
    obtain ⟨tx, hget, -⟩ := h.names_input hinp
    exact (List.getElem?_eq_some_iff.mp hget).1
  outputs := by
    intro out hout
    obtain ⟨tx, hget, -⟩ := h.names_output hout
    exact (List.getElem?_eq_some_iff.mp hget).1

end RowIntegrity

/-! ## From the serialized block -/

section Rows

variable {D : Digests} {height : UInt32} {index : Nat}

/-- Rows made one per item, the place a function of the position. -/
theorem map_place_mapIdx {α β : Type} {xs : List α} {count : UInt32} {f : Nat → α → β}
    {place : β → RowPlace} {tx : TxRow} (hcount : count.toNat = xs.length)
    (hplace : ∀ j x, place (f j x) = ⟨tx.height, tx.txIndex, tx.txid, UInt32.ofNat j⟩) :
    (xs.mapIdx f).map place = tx.places count := by
  apply List.ext_getElem
  · simp [TxRow.places, hcount]
  · intro j h₁ h₂
    simp [TxRow.places, hplace]

theorem SpelledTx.inputs_place (s : SpelledTx) :
    (s.rows D height index).inputs.map InputRow.place =
      (s.rows D height index).tx.places (s.rows D height index).tx.inputCount :=
  map_place_mapIdx (UInt32.toNat_ofNat_of_lt' s.inputs_lt) fun _ _ => rfl

theorem SpelledTx.outputs_place (s : SpelledTx) :
    (s.rows D height index).outputs.map OutputRow.place =
      (s.rows D height index).tx.places (s.rows D height index).tx.outputCount := by
  have hlt : s.tx.outputs.length < 2 ^ 32 :=
    s.outputs_le.trans_lt (by norm_num [Cursor.maxItems])
  exact map_place_mapIdx (UInt32.toNat_ofNat_of_lt' hlt) fun _ _ => rfl

theorem SpelledBlock.mem_parsed {b : SpelledBlock} {p : ParsedTx} (hp : p ∈ b.parsed D height) :
    ∃ s : SpelledTx, ∃ i, p = s.rows D height i := by
  obtain ⟨i, hi, rfl⟩ := List.mem_mapIdx.mp hp
  exact ⟨b.txs[i], i, rfl⟩

theorem SpelledBlock.inputs_place (b : SpelledBlock) :
    ((b.parsed D height).map ParsedTx.inputs).flatten.map InputRow.place =
      ((b.parsed D height).map ParsedTx.tx).flatMap fun tx => tx.places tx.inputCount := by
  rw [List.map_flatten, List.map_map, List.flatMap_map, List.flatMap_def]
  congr 1
  apply List.map_congr_left
  intro p hp
  obtain ⟨s, i, rfl⟩ := mem_parsed hp
  exact s.inputs_place

theorem SpelledBlock.outputs_place (b : SpelledBlock) :
    ((b.parsed D height).map ParsedTx.outputs).flatten.map OutputRow.place =
      ((b.parsed D height).map ParsedTx.tx).flatMap fun tx => tx.places tx.outputCount := by
  rw [List.map_flatten, List.map_map, List.flatMap_map, List.flatMap_def]
  congr 1
  apply List.map_congr_left
  intro p hp
  obtain ⟨s, i, rfl⟩ := mem_parsed hp
  exact s.outputs_place

end Rows

theorem ReadAs.rowIntegrity {D : Digests} {payload : List UInt8} {height : UInt32}
    {block : FullBlock} {b : SpelledBlock} {rest : List UInt8}
    (h : ReadAs D payload height block b rest) : RowIntegrity height block where
  indices := by
    have hlt : b.txs.length < 2 ^ 32 := b.txs_le.trans_lt (by norm_num [Cursor.maxItems])
    have hcount : block.blockRow.txCount.toNat = b.txs.length := by
      rw [h.txCount]
      exact UInt32.toNat_ofNat_of_lt' hlt
    rw [h.txs, hcount]
    apply List.ext_getElem
    · simp [SpelledBlock.parsed]
    · intro i h₁ h₂
      have hi : i < b.txs.length := by simpa using h₂
      simp only [SpelledBlock.parsed, List.getElem_map, List.getElem_mapIdx, List.getElem_range]
      exact UInt32.toNat_ofNat_of_lt' (hi.trans hlt)
  heights := by
    rw [h.txs]
    intro tx htx
    obtain ⟨p, hp, rfl⟩ := List.mem_map.mp htx
    obtain ⟨s, i, rfl⟩ := SpelledBlock.mem_parsed hp
    rfl
  inputs := by rw [h.inputs, h.txs, b.inputs_place]
  outputs := by rw [h.outputs, h.txs, b.outputs_place]

/-! ## The call that follows -/

/-- Over rows in range no index of `apply_block` is out of range. -/
theorem applyBlock_ne_panic (order : IterOrder Key UtxoValue) (faults : RocksFaults)
    (s : UtxoStore) (height : UInt32) {txs : List TxRow} {inputs : List InputRow}
    {outputs : List OutputRow} (hrange : RowsInRange txs inputs outputs) :
    (s.applyBlock order faults height txs inputs outputs).1 ≠ .error .panic := by
  have hinit := accounted_initial s.recent height txs outputs
  have hruns := @Accounted.resolveInputs_goes_on s.db s.undoEnabled faults _ _ _ _ _ hinit
    hrange.inputs
  have hrun := applyBlock_run order faults s height txs inputs outputs
  generalize s.applyBlock order faults height txs inputs outputs = call at hrun ⊢
  cases hrun with
  | @aborts stop recent hloop =>
      rw [hloop] at hruns
      obtain ⟨st, hst⟩ | ⟨recent', hrocks, -⟩ := hruns
      · contradiction
      · cases hrocks
        exact nofun
  | panics hloop hfees =>
      have hbooks := hinit.resolveInputs hloop
      rw [hbooks.subtractOutputs hrange.outputs] at hfees
      contradiction
  | writeFails => exact nofun
  | returns => exact nofun

/-- **Row integrity of accepted blocks.**  Whatever payload is accepted, no access of the parser
was out of range, the rows fit together, each names its transaction row, and `apply_block` on
them does not panic, over any store and whatever RocksDB does. -/
theorem parseBlockFull_rowIntegrity (D : Digests) (payload : List UInt8) (height : UInt32)
    (hash : Hash32) (header : BlockHeader) (block : FullBlock)
    (h : parseBlockFull D payload height hash header = .ok block) :
    parseBlockFullChecked D payload height hash header = .ok block ∧
      RowIntegrity height block ∧
      (∀ inp ∈ block.inputs, inp.place.Names block.txs) ∧
      (∀ out ∈ block.outputs, out.place.Names block.txs) ∧
      ∀ (order : IterOrder Key UtxoValue) (faults : RocksFaults) (s : UtxoStore),
        (s.applyBlock order faults height block.txs block.inputs block.outputs).1 ≠
          .error .panic := by
  obtain ⟨b, rest, hread⟩ := exists_readAs h
  have hrows := hread.rowIntegrity
  refine ⟨?_, hrows, fun _ => hrows.names_input, fun _ => hrows.names_output, ?_⟩
  · rw [parseBlockFullChecked_eq, h]
    rfl
  · intro order faults s
    exact applyBlock_ne_panic order faults s height hrows.rowsInRange

/-- What the sample payload is parsed to. -/
def sampleAccepted : FullBlock :=
  wireBlock sampleDigests (blockBytes (zeroBytes 80) [sampleCoinbase, sampleSegwit]) 7 Hash32.zero
    (BlockHeader.parse (zeroBytes 80)) [sampleCoinbase, sampleSegwit]

theorem parseBlockFull_rowIntegrity_sample :
    parseBlockFullChecked sampleDigests
        (blockBytes (zeroBytes 80) [sampleCoinbase, sampleSegwit]) 7 Hash32.zero
        (BlockHeader.parse (zeroBytes 80)) = .ok sampleAccepted ∧
      RowIntegrity 7 sampleAccepted ∧
      (∀ inp ∈ sampleAccepted.inputs, inp.place.Names sampleAccepted.txs) ∧
      (∀ out ∈ sampleAccepted.outputs, out.place.Names sampleAccepted.txs) ∧
      ∀ (order : IterOrder Key UtxoValue) (faults : RocksFaults) (s : UtxoStore),
        (s.applyBlock order faults 7 sampleAccepted.txs sampleAccepted.inputs
          sampleAccepted.outputs).1 ≠ .error .panic :=
  parseBlockFull_rowIntegrity sampleDigests
    (blockBytes (zeroBytes 80) [sampleCoinbase, sampleSegwit]) 7 Hash32.zero
    (BlockHeader.parse (zeroBytes 80)) sampleAccepted
    (parseBlockFull_wire (zeroBytes 80) [sampleCoinbase, sampleSegwit] (by decide)
      sampleTxs_parsable 7 Hash32.zero (BlockHeader.parse (zeroBytes 80)))

end Bidx
