import Bidx.Parser.Accepted
import Bidx.Parser.BlockWeight

/-!
# How much of a payload is parsed

Nothing but the counts delimits the transactions of a block, and
`parse_block_full` does not look behind the last one.  What it parses is a front
part of the payload, without a gap; the bytes left over enter the size of the
block row and nothing else.
-/

namespace Bidx

open LittleEndian

/-- Header, transaction count and transactions are the whole payload. -/
def CoversWhole (payload : List UInt8) (block : FullBlock) : Prop :=
  ∃ count, CountBytes block.txs.length count ∧ count <+: payload.drop blockHeaderLen ∧
    block.blockRow.size.toNat =
      blockHeaderLen + count.length + (block.txs.map fun tx => tx.size.toNat).sum

section Accepted

variable {D : Digests} {payload rest : List UInt8} {height : UInt32} {hash : Hash32}
  {header : BlockHeader} {block : FullBlock} {b : SpelledBlock}

theorem ReadAs.length_txs (h : ReadAs D payload height block b rest) :
    block.txs.length = b.txs.length := by
  rw [h.txs, List.length_map, SpelledBlock.parsed, List.length_mapIdx]

theorem SpelledBlock.length_bytes (b : SpelledBlock) :
    b.bytes.length =
      blockHeaderLen + b.txCount.length + (b.txs.map fun s => s.bytes.length).sum := by
  rw [SpelledBlock.bytes, List.length_append, List.length_append, b.header.toList_length,
    List.length_flatten, List.map_map, Nat.add_assoc]
  rfl

theorem ReadAs.sizes (h : ReadAs D payload height block b rest)
    (hlt : payload.length < 2 ^ 32) :
    (block.txs.map fun tx => tx.size.toNat) = b.txs.map fun s => s.bytes.length := by
  have hlen := congrArg List.length h.payload_eq
  rw [List.length_append, b.length_bytes] at hlen
  rw [h.txs, SpelledBlock.parsed, map_mapIdx, map_mapIdx]
  apply List.ext_getElem (by simp)
  intro i h₁ h₂
  have hi : i < b.txs.length := by simpa using h₂
  have hle : b.txs[i].bytes.length ≤ (b.txs.map fun s => s.bytes.length).sum :=
    List.single_le_sum (by simp) _ (List.mem_map_of_mem (List.getElem_mem hi))
  simp only [List.getElem_mapIdx, List.getElem_map, SpelledTx.rows, SpelledTx.txRow]
  exact UInt32.toNat_ofNat_of_lt' (by
    change _ < 2 ^ 32
    omega)

theorem exists_cover (h : parseBlockFull D payload height hash header = .ok block) :
    ∃ (head count : List UInt8) (txs : List SpelledTx) (rest : List UInt8),
      head.length = blockHeaderLen ∧ CountBytes block.txs.length count ∧
      payload = head ++ (count ++ ((txs.map SpelledTx.bytes).flatten ++ rest)) ∧
      block.txs = txs.mapIdx (SpelledTx.txRow D height) ∧
      (payload.length < 2 ^ 32 → block.blockRow.size.toNat =
        blockHeaderLen + count.length + (block.txs.map fun tx => tx.size.toNat).sum +
          rest.length) := by
  obtain ⟨b, rest, hread⟩ := exists_readAs h
  refine ⟨b.header.toList, b.txCount, b.txs, rest, b.header.toList_length, ?_, ?_, ?_, ?_⟩
  · rw [hread.length_txs]
    exact b.txCount_spells
  · rw [hread.payload_eq, SpelledBlock.bytes, List.append_assoc, List.append_assoc]
  · rw [hread.txs, SpelledBlock.parsed, map_mapIdx]
    rfl
  · intro hlt
    have hlen := congrArg List.length hread.payload_eq
    rw [List.length_append, b.length_bytes] at hlen
    rw [hread.size, hread.sizes hlt, UInt32.toNat_ofNat_of_lt' hlt, hlen]

/-- **Coverage.**  An accepted payload begins with the header, the transaction count and the
transactions, one behind the other, and in a payload below `2 ^ 32` bytes the size of the block
row is the sum of their widths and the number of bytes left over; and behind the canonical
payload of a block any bytes may be left over, the rows are those of the block. -/
theorem parseBlockFull_coverage (D : Digests) (height : UInt32) (hash : Hash32)
    (header : BlockHeader) :
    (∀ (payload : List UInt8) (block : FullBlock),
      parseBlockFull D payload height hash header = .ok block →
      ∃ (head count : List UInt8) (txs : List SpelledTx) (rest : List UInt8),
        head.length = blockHeaderLen ∧ CountBytes block.txs.length count ∧
        payload = head ++ (count ++ ((txs.map SpelledTx.bytes).flatten ++ rest)) ∧
        block.txs = txs.mapIdx (SpelledTx.txRow D height) ∧
        (payload.length < 2 ^ 32 → block.blockRow.size.toNat =
          blockHeaderLen + count.length + (block.txs.map fun tx => tx.size.toNat).sum +
            rest.length)) ∧
    (∀ (head : Bytes 80) (txs : List WireTx) (rest : List UInt8),
      txs.length ≤ Cursor.maxItems → (∀ tx ∈ txs, tx.Parsable) →
      ∃ block, parseBlockFull D (blockBytes head txs ++ rest) height hash header = .ok block ∧
        block.txs = txs.mapIdx (WireTx.txRow D height) ∧
        block.inputs =
          (txs.mapIdx fun i tx => tx.inputs.mapIdx (tx.inputRow D height i)).flatten ∧
        block.outputs =
          (txs.mapIdx fun i tx => tx.outputs.mapIdx (tx.outputRow D height i)).flatten) := by
  refine ⟨fun payload block h => exists_cover h, fun head txs rest hcount hl => ?_⟩
  refine ⟨_, parseBlockFull_append head txs rest hcount hl height hash header, ?_, ?_, ?_⟩
  · simp only [wireBlock, map_mapIdx, WireTx.rows]
  · simp only [wireBlock, map_mapIdx, WireTx.rows]
  · simp only [wireBlock, map_mapIdx, WireTx.rows]

/-- A block of two transactions and one byte behind it. -/
theorem parseBlockFull_leftover :
    ∃ block, parseBlockFull sampleDigests
        (blockBytes (zeroBytes 80) [sampleCoinbase, sampleSegwit] ++ [0x00]) 7 Hash32.zero
        (BlockHeader.parse (zeroBytes 80)) = .ok block ∧
      ¬CoversWhole (blockBytes (zeroBytes 80) [sampleCoinbase, sampleSegwit] ++ [0x00]) block := by
  refine ⟨_, parseBlockFull_append (zeroBytes 80) [sampleCoinbase, sampleSegwit] [0x00]
    (by decide) sampleTxs_parsable 7 Hash32.zero (BlockHeader.parse (zeroBytes 80)), ?_⟩
  rintro ⟨count, hcount, -, hsize⟩
  have hrow : (blockBytes (zeroBytes 80) [sampleCoinbase, sampleSegwit] ++ [0x00]).length = 233 := by
    rw [List.length_append, sampleBlock_length]
    rfl
  have htxs : ((wireBlock sampleDigests
      (blockBytes (zeroBytes 80) [sampleCoinbase, sampleSegwit] ++ [0x00]) 7 Hash32.zero
      (BlockHeader.parse (zeroBytes 80)) [sampleCoinbase, sampleSegwit]).txs.map
        fun tx => tx.size.toNat).sum = 151 := by
    decide +kernel
  rw [htxs] at hsize
  change (UInt32.ofNat _).toNat = _ at hsize
  rw [hrow] at hsize
  -- One byte is left over, and no count is spelled in two.
  have hwidth : 233 = blockHeaderLen + count.length + 151 := hsize
  have hspelled := hcount.length
  simp only [blockHeaderLen] at hwidth
  omega

end Accepted

end Bidx
