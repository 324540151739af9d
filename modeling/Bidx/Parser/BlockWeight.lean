import Bidx.Parser.RoundTrip
import Mathlib.Algebra.Order.BigOperators.Group.List

/-!
# The block weight

`parse_block_full` adds the transaction weights and four times the header.  The
transaction count stands between the header and the transactions and is part of
neither sum: the row falls short of the BIP141 weight by four times its width.
-/

namespace Bidx

open LittleEndian

/-- The block without its witness data. -/
def strippedBlockBytes (header : Bytes 80) (txs : List WireTx) : List UInt8 :=
  header.toList ++ (compactSize txs.length ++ (txs.map WireTx.stripped).flatten)

/-- BIP141: three times the stripped size plus the total size. -/
def bip141Weight (header : Bytes 80) (txs : List WireTx) : Nat :=
  3 * (strippedBlockBytes header txs).length + (blockBytes header txs).length

/-- The code's sum over `u32` weights, where it stays below the clamp. -/
theorem blockWeight_toNat {weights : List UInt32} {total : Nat}
    (hsum : (weights.map UInt32.toNat).sum = total) (hlt : total + 320 < 2 ^ 32) :
    (UInt32.ofNat (min ((weights.map UInt32.toUInt64).sum + 80 * 4).toNat 0xFFFFFFFF)).toNat =
      total + 320 := by
  have hmap : (weights.map UInt32.toUInt64).map UInt64.toNat = weights.map UInt32.toNat := by
    rw [List.map_map]
    exact List.map_congr_left fun w _ => UInt32.toNat_toUInt64 w
  have hwords : (weights.map UInt32.toUInt64).sum.toNat = total := by
    rw [sum_u64_toNat, hmap, hsum, Nat.mod_eq_of_lt (by omega)]
  have hadd : ((weights.map UInt32.toUInt64).sum + 80 * 4).toNat = total + 320 := by
    rw [UInt64.toNat_add, hwords]
    exact Nat.mod_eq_of_lt (by simp; omega)
  rw [hadd, Nat.min_eq_left (by omega), UInt32.toNat_ofNat', Nat.mod_eq_of_lt hlt]

theorem sum_map_weight (txs : List WireTx) :
    (txs.map WireTx.weight).sum =
      3 * (txs.map WireTx.stripped).flatten.length + (txs.map WireTx.serialize).flatten.length := by
  induction txs with
  | nil => rfl
  | cons tx txs ih =>
      simp only [List.map_cons, List.sum_cons, List.flatten_cons, List.length_append, ih,
        WireTx.weight]
      omega

theorem sum_map_weight_le (txs : List WireTx) :
    (txs.map WireTx.weight).sum ≤ 4 * (txs.map WireTx.serialize).flatten.length := by
  induction txs with
  | nil => simp
  | cons tx txs ih =>
      have hle := stripped_length_le tx
      simp only [List.map_cons, List.sum_cons, List.flatten_cons, List.length_append,
        WireTx.weight] at ih ⊢
      omega

/-- Each transaction row holds the exact weight. -/
theorem txWeights_toNat {D : Digests} {height : UInt32} {txs : List WireTx}
    (hlt : (txs.map WireTx.weight).sum < 2 ^ 32) :
    (((txs.mapIdx (WireTx.rows D height)).map fun p => p.tx.weight).map UInt32.toNat) =
      txs.map WireTx.weight := by
  rw [map_mapIdx, map_mapIdx]
  apply List.ext_getElem (by simp)
  intro i h₁ h₂
  have hi : i < txs.length := by simpa using h₂
  have hle : txs[i].weight ≤ (txs.map WireTx.weight).sum :=
    List.single_le_sum (by simp) _ (List.mem_map_of_mem (List.getElem_mem hi))
  simp only [List.getElem_mapIdx, List.getElem_map, WireTx.rows, WireTx.txRow]
  exact UInt32.toNat_ofNat_of_lt' (hle.trans_lt hlt)

theorem wireBlock_weight (D : Digests) (header : Bytes 80) (txs : List WireTx)
    (hsize : (blockBytes header txs).length < 2 ^ 30) (height : UInt32) (blockHash : Hash32)
    (hdr : BlockHeader) :
    (wireBlock D (blockBytes header txs) height blockHash hdr txs).blockRow.weight.toNat +
      4 * (compactSize txs.length).length = bip141Weight header txs := by
  have hlen : (blockBytes header txs).length =
      80 + ((compactSize txs.length).length + (txs.map WireTx.serialize).flatten.length) := by
    simp only [blockBytes, List.length_append, header.toList_length]
  have hstripped : (strippedBlockBytes header txs).length =
      80 + ((compactSize txs.length).length + (txs.map WireTx.stripped).flatten.length) := by
    simp only [strippedBlockBytes, List.length_append, header.toList_length]
  have hle := sum_map_weight_le txs
  have hsum := sum_map_weight txs
  have hweights := @txWeights_toNat D height txs (by omega)
  have htotal := blockWeight_toNat (congrArg List.sum hweights) (by omega)
  rw [List.map_map] at htotal
  have hrow : (wireBlock D (blockBytes header txs) height blockHash hdr txs).blockRow.weight.toNat =
      (txs.map WireTx.weight).sum + 320 := htotal
  rw [hrow, bip141Weight, hlen, hstripped]
  omega

/-- The weight of the block row is the BIP141 weight less four times the width of the
transaction count. -/
theorem parseBlockFull_weight (D : Digests) (header : Bytes 80) (txs : List WireTx)
    (hcount : txs.length ≤ Cursor.maxItems) (hl : ∀ tx ∈ txs, tx.Parsable)
    (hsize : (blockBytes header txs).length < 2 ^ 30) (height : UInt32) (blockHash : Hash32)
    (hdr : BlockHeader) :
    ∃ block, parseBlockFull D (blockBytes header txs) height blockHash hdr = .ok block ∧
      block.blockRow.weight.toNat + 4 * (compactSize txs.length).length =
        bip141Weight header txs :=
  ⟨_, parseBlockFull_wire header txs hcount hl height blockHash hdr,
    wireBlock_weight D header txs hsize height blockHash hdr⟩

theorem sampleTxs_parsable : ∀ tx ∈ [sampleCoinbase, sampleSegwit], tx.Parsable := by
  intro tx htx
  simp only [List.mem_cons, List.not_mem_nil, or_false] at htx
  rcases htx with rfl | rfl
  · exact sampleCoinbase_withinLimits.parsable
  · exact sampleSegwit_withinLimits.parsable

theorem sampleBlock_length :
    (blockBytes (zeroBytes 80) [sampleCoinbase, sampleSegwit]).length = 232 := by
  decide +kernel

/-- A block of one legacy and one segwit transaction, counted in one byte. -/
theorem parseBlockFull_weight_sample :
    ∃ block, parseBlockFull sampleDigests
        (blockBytes (zeroBytes 80) [sampleCoinbase, sampleSegwit]) 7 Hash32.zero
        (BlockHeader.parse (zeroBytes 80)) = .ok block ∧
      block.blockRow.weight.toNat + 4 =
        bip141Weight (zeroBytes 80) [sampleCoinbase, sampleSegwit] :=
  parseBlockFull_weight sampleDigests (zeroBytes 80) [sampleCoinbase, sampleSegwit] (by decide)
    sampleTxs_parsable (by rw [sampleBlock_length]; norm_num) 7 Hash32.zero
    (BlockHeader.parse (zeroBytes 80))

/-- On that block the row is four weight units short. -/
theorem parseBlockFull_weight_short :
    ∃ block, parseBlockFull sampleDigests
        (blockBytes (zeroBytes 80) [sampleCoinbase, sampleSegwit]) 7 Hash32.zero
        (BlockHeader.parse (zeroBytes 80)) = .ok block ∧
      block.blockRow.weight.toNat ≠
        bip141Weight (zeroBytes 80) [sampleCoinbase, sampleSegwit] := by
  refine ⟨_, parseBlockFull_wire (zeroBytes 80) [sampleCoinbase, sampleSegwit] (by decide)
    sampleTxs_parsable 7 Hash32.zero (BlockHeader.parse (zeroBytes 80)), ?_⟩
  have hweight := wireBlock_weight sampleDigests (zeroBytes 80) [sampleCoinbase, sampleSegwit]
    (by rw [sampleBlock_length]; norm_num) 7 Hash32.zero (BlockHeader.parse (zeroBytes 80))
  have hwidth : (compactSize [sampleCoinbase, sampleSegwit].length).length = 1 := rfl
  omega

end Bidx
