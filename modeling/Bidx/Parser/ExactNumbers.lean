import Bidx.Parser.Coverage

/-!
# Where the arithmetic of the parser is exact

Every count and length the parser casts down to `u32` fits, some by the sanity
limit, some by the width they were read in, the rest by the size of the payload.
The one accumulator that nothing bounds is the coinbase value: single values are
checked, their `u64` sum is not.
-/

namespace Bidx

open LittleEndian

/-- The numbers the row of a transaction should hold. -/
def SpelledTx.txNumbers (index : Nat) (s : SpelledTx) : List Nat :=
  [index, s.bytes.length, s.weight, s.tx.inputs.length, s.tx.outputs.length]

/-- The output values of the first transaction. -/
def SpelledBlock.firstValues (b : SpelledBlock) : List Nat :=
  match b.txs with
  | [] => []
  | s :: _ => s.tx.outputs.map fun o => o.value.toNat

/-- Every number of the rows is the one the payload stands for. -/
structure ExactNumbers (payload : List UInt8) (b : SpelledBlock) (block : FullBlock) : Prop where
  coinbaseValue : block.blockRow.coinbaseValue.toNat = b.firstValues.sum
  txs : block.txs.map TxRow.numbers = b.txs.mapIdx SpelledTx.txNumbers
  inputs : block.inputs.map InputRow.numbers =
    (b.txs.mapIdx fun i s => s.tx.inputs.mapIdx (s.tx.inputNumbers i)).flatten
  outputs : block.outputs.map OutputRow.numbers =
    (b.txs.mapIdx fun i s => s.tx.outputs.mapIdx (WireTx.outputNumbers i)).flatten
  txCount : block.blockRow.txCount.toNat = b.txs.length
  size : block.blockRow.size.toNat = payload.length
  weight : block.blockRow.weight.toNat = (b.txs.map SpelledTx.weight).sum + 80 * 4

/-! ## Bounds from the bytes -/

theorem exists_part {α β : Type} {R : α → β → Prop} {l : List α} {parts : List β}
    (h : List.Forall₂ R l parts) {a : α} (ha : a ∈ l) : ∃ b ∈ parts, R a b := by
  induction h with
  | nil => simp at ha
  | cons hhead _ ih =>
      rcases List.mem_cons.mp ha with rfl | ha
      · exact ⟨_, List.mem_cons_self, hhead⟩
      · obtain ⟨b, hb, hR⟩ := ih ha
        exact ⟨b, List.mem_cons_of_mem _ hb, hR⟩

theorem length_le_flatten {parts : List (List UInt8)} {part : List UInt8} (h : part ∈ parts) :
    part.length ≤ parts.flatten.length :=
  (List.sublist_flatten_of_mem h).length_le

theorem items_total_le {stack parts : List (List UInt8)} (h : List.Forall₂ ItemBytes stack parts) :
    (stack.map List.length).sum ≤ parts.flatten.length := by
  induction h with
  | nil => simp
  | cons hitem _ ih =>
      obtain ⟨len, -, -, rfl⟩ := hitem
      simp only [List.map_cons, List.sum_cons, List.flatten_cons, List.length_append]
      omega

namespace SpelledTx

theorem length_stripped (s : SpelledTx) : s.stripped.length = s.body.length + 8 := by
  simp only [stripped, List.length_append, length_toBytes]
  omega

theorem length_bytes (s : SpelledTx) :
    s.stripped.length ≤ s.bytes.length ∧
      ∀ w ∈ s.tx.witness, s.witnesses.flatten.length ≤ s.bytes.length := by
  rw [length_stripped, bytes]
  cases hw : s.tx.witness with
  | none => simp [length_stripped]
  | some w =>
      simp only [List.length_append, List.length_cons, length_toBytes]
      exact ⟨by omega, fun _ _ => by omega⟩

theorem weight_le (s : SpelledTx) : s.weight ≤ 4 * s.bytes.length := by
  have hle := s.length_bytes.1
  rw [weight]
  omega

theorem script_le (s : SpelledTx) {i : WireInput} (h : i ∈ s.tx.inputs) :
    i.scriptSig.length ≤ Cursor.maxItems := by
  obtain ⟨bs, -, len, -, hle, -⟩ := exists_part s.inputs_spell h
  exact hle

theorem scriptPubkey_le (s : SpelledTx) {o : WireOutput} (h : o ∈ s.tx.outputs) :
    o.scriptPubkey.length ≤ Cursor.maxItems := by
  obtain ⟨bs, -, len, -, hle, -⟩ := exists_part s.outputs_spell h
  exact hle

/-- A witness stack has a bounded number of items, and these fit into the transaction. -/
theorem stack_le (s : SpelledTx) (j : Nat) :
    (s.tx.stack j).length ≤ Cursor.maxItems ∧
      ((s.tx.stack j).map List.length).sum ≤ s.bytes.length := by
  cases hw : s.tx.witness with
  | none => simp [WireTx.stack, hw]
  | some w =>
      by_cases hj : j < w.witnesses.length
      · have hstack : s.tx.stack j = w.witnesses[j] := by simp [WireTx.stack, hw, hj]
        obtain ⟨part, hpart, count, items, -, hle, hitems, rfl⟩ :=
          exists_part (s.segwit w hw).2.2 (List.getElem_mem hj)
        have htotal := items_total_le hitems
        have hpartLe := length_le_flatten hpart
        have hbytes := s.length_bytes.2 w hw
        rw [List.length_append] at hpartLe
        rw [hstack]
        exact ⟨hle, by omega⟩
      · simp [WireTx.stack, hw, hj]

variable {D : Digests}

theorem txRow_numbers (s : SpelledTx) (hsize : s.bytes.length < 2 ^ 30) (height : UInt32)
    {index : Nat} (hindex : index ≤ Cursor.maxItems) :
    (s.txRow D height index).numbers = s.txNumbers index := by
  have hweight := s.weight_le
  simp only [TxRow.numbers, txRow, WireTx.txRow, txNumbers, toUInt32_count hindex,
    toUInt32_count s.outputs_le]
  rw [UInt32.toNat_ofNat_of_lt' (hsize.trans (by norm_num [UInt32.size])),
    UInt32.toNat_ofNat_of_lt' (n := s.weight) (by change _ < 2 ^ 32; omega),
    UInt32.toNat_ofNat_of_lt' s.inputs_lt]

theorem inputRows_numbers (s : SpelledTx) (hsize : s.bytes.length < 2 ^ 30) (height : UInt32)
    {index : Nat} (hindex : index ≤ Cursor.maxItems) :
    (s.tx.inputs.mapIdx (s.inputRow D height index)).map InputRow.numbers =
      s.tx.inputs.mapIdx (s.tx.inputNumbers index) := by
  rw [map_mapIdx]
  refine List.mapIdx_eq_mapIdx_iff.mpr fun j hj => ?_
  obtain ⟨hitems, htotal⟩ := s.stack_le j
  have hlt := s.inputs_lt
  simp only [InputRow.numbers, inputRow, WireTx.inputRow, WireTx.inputNumbers,
    toUInt32_count hindex, toUInt32_count hitems, toUInt32_count (s.script_le (List.getElem_mem hj))]
  rw [UInt32.toNat_ofNat_of_lt' (n := j) (by change _ < 2 ^ 32; omega),
    UInt32.toNat_ofNat_of_lt' (n := ((s.tx.stack j).map List.length).sum)
      (by change _ < 2 ^ 32; omega)]

theorem outputRows_numbers (s : SpelledTx) (height : UInt32) {index : Nat}
    (hindex : index ≤ Cursor.maxItems) :
    (s.tx.outputs.mapIdx (s.outputRow D height index)).map OutputRow.numbers =
      s.tx.outputs.mapIdx (WireTx.outputNumbers index) := by
  rw [map_mapIdx]
  refine List.mapIdx_eq_mapIdx_iff.mpr fun j hj => ?_
  simp only [OutputRow.numbers, outputRow, WireTx.outputRow, WireTx.outputNumbers,
    toUInt32_count hindex, toUInt32_count (hj.le.trans s.outputs_le),
    toUInt32_count (s.scriptPubkey_le (List.getElem_mem hj))]

end SpelledTx

/-! ## The accumulators -/

section Accepted

variable {D : Digests} {payload rest : List UInt8} {height : UInt32} {block : FullBlock}
  {b : SpelledBlock}

theorem ReadAs.length_le (h : ReadAs D payload height block b rest) :
    (b.txs.map fun s => s.bytes.length).sum + 81 ≤ payload.length := by
  have hlen := congrArg List.length h.payload_eq
  have hcount := b.txCount_spells.length
  rw [List.length_append, b.length_bytes, blockHeaderLen] at hlen
  omega

theorem ReadAs.length_bytes_le (h : ReadAs D payload height block b rest) {s : SpelledTx}
    (hs : s ∈ b.txs) : s.bytes.length ≤ payload.length := by
  have hle : s.bytes.length ≤ (b.txs.map fun s => s.bytes.length).sum :=
    List.single_le_sum (by simp) _ (List.mem_map_of_mem hs)
  have htotal := h.length_le
  omega

theorem sum_weights_le (txs : List SpelledTx) :
    (txs.map SpelledTx.weight).sum ≤ 4 * (txs.map fun s => s.bytes.length).sum := by
  induction txs with
  | nil => simp
  | cons s txs ih =>
      have hle := s.weight_le
      simp only [List.map_cons, List.sum_cons]
      omega

/-- The `u64` sum over the first transaction is the exact one modulo `2 ^ 64`. -/
theorem ReadAs.coinbaseValue_toNat (h : ReadAs D payload height block b rest) :
    block.blockRow.coinbaseValue.toNat = b.firstValues.sum % 2 ^ 64 := by
  rw [h.coinbaseValue, sum_u64_toNat]
  congr 2
  rw [SpelledBlock.parsed, SpelledBlock.firstValues]
  cases b.txs with
  | nil => rfl
  | cons s txs =>
      rw [List.mapIdx_cons, coinbaseValues]
      apply List.ext_getElem (by simp [SpelledTx.rows])
      intro j h₁ h₂
      simp [SpelledTx.rows, SpelledTx.outputRow, WireTx.outputRow]

/-- Below `2 ^ 30` bytes the numbers of the rows are exact exactly when the coinbase value is. -/
theorem ReadAs.exactNumbers_iff (h : ReadAs D payload height block b rest)
    (hlt : payload.length < 2 ^ 30) :
    ExactNumbers payload b block ↔ b.firstValues.sum < 2 ^ 64 := by
  have hcoinbase := h.coinbaseValue_toNat
  constructor
  · intro hexact
    rw [← hexact.coinbaseValue]
    exact block.blockRow.coinbaseValue.toNat_lt
  intro hsum
  have hsize : ∀ (i : Nat) (hi : i < b.txs.length), b.txs[i].bytes.length < 2 ^ 30 :=
    fun i hi => (h.length_bytes_le (List.getElem_mem hi)).trans_lt hlt
  have hindex : ∀ i, i < b.txs.length → i ≤ Cursor.maxItems := fun i hi => hi.le.trans b.txs_le
  have hlen := h.length_le
  have hweights := sum_weights_le b.txs
  constructor
  case coinbaseValue => rw [hcoinbase, Nat.mod_eq_of_lt hsum]
  case txs =>
    rw [h.txs, SpelledBlock.parsed, map_mapIdx, map_mapIdx]
    exact List.mapIdx_eq_mapIdx_iff.mpr fun i hi =>
      b.txs[i].txRow_numbers (hsize i hi) height (hindex i hi)
  case inputs =>
    rw [h.inputs, SpelledBlock.parsed, map_mapIdx, List.map_flatten, map_mapIdx]
    congr 1
    exact List.mapIdx_eq_mapIdx_iff.mpr fun i hi =>
      b.txs[i].inputRows_numbers (hsize i hi) height (hindex i hi)
  case outputs =>
    rw [h.outputs, SpelledBlock.parsed, map_mapIdx, List.map_flatten, map_mapIdx]
    congr 1
    exact List.mapIdx_eq_mapIdx_iff.mpr fun i hi =>
      b.txs[i].outputRows_numbers height (hindex i hi)
  case txCount => rw [h.txCount, toUInt32_count b.txs_le]
  case size =>
    rw [h.size]
    exact UInt32.toNat_ofNat_of_lt' (hlt.trans (by norm_num [UInt32.size]))
  case weight =>
    have hrows : ((block.txs.map TxRow.weight).map UInt32.toNat) = b.txs.map SpelledTx.weight := by
      rw [h.txs, SpelledBlock.parsed, map_mapIdx, map_mapIdx, map_mapIdx]
      apply List.ext_getElem (by simp)
      intro i h₁ h₂
      have hi : i < b.txs.length := by simpa using h₂
      have hle := b.txs[i].weight_le
      have hsmall := hsize i hi
      simp only [List.getElem_mapIdx, List.getElem_map, SpelledTx.rows, SpelledTx.txRow]
      exact UInt32.toNat_ofNat_of_lt' (by
        change _ < 2 ^ 32
        omega)
    have htotal := blockWeight_toNat (congrArg List.sum hrows) (by omega)
    rw [List.map_map] at htotal
    rw [h.weight]
    exact htotal

end Accepted

/-- **Parser arithmetic.**  An accepted payload below `2 ^ 30` bytes reads as a block, and the rows
hold its numbers exactly if and only if the output values of the first transaction sum up to less
than `2 ^ 64`. -/
theorem parseBlockFull_exactNumbers_iff (D : Digests) (payload : List UInt8) (height : UInt32)
    (hash : Hash32) (header : BlockHeader) (block : FullBlock)
    (h : parseBlockFull D payload height hash header = .ok block)
    (hlt : payload.length < 2 ^ 30) :
    (∃ b rest, ReadAs D payload height block b rest) ∧
      ∀ b rest, ReadAs D payload height block b rest →
        (ExactNumbers payload b block ↔ b.firstValues.sum < 2 ^ 64) :=
  ⟨exists_readAs h, fun _ _ hread => hread.exactNumbers_iff hlt⟩

/-- The sample block, where the condition holds. -/
theorem parseBlockFull_exactNumbers_sample :
    (∃ b rest, ReadAs sampleDigests (blockBytes (zeroBytes 80) [sampleCoinbase, sampleSegwit]) 7
      (wireBlock sampleDigests (blockBytes (zeroBytes 80) [sampleCoinbase, sampleSegwit]) 7
        Hash32.zero (BlockHeader.parse (zeroBytes 80)) [sampleCoinbase, sampleSegwit]) b rest) ∧
    ∀ b rest, ReadAs sampleDigests (blockBytes (zeroBytes 80) [sampleCoinbase, sampleSegwit]) 7
      (wireBlock sampleDigests (blockBytes (zeroBytes 80) [sampleCoinbase, sampleSegwit]) 7
        Hash32.zero (BlockHeader.parse (zeroBytes 80)) [sampleCoinbase, sampleSegwit]) b rest →
      (ExactNumbers (blockBytes (zeroBytes 80) [sampleCoinbase, sampleSegwit]) b
        (wireBlock sampleDigests (blockBytes (zeroBytes 80) [sampleCoinbase, sampleSegwit]) 7
          Hash32.zero (BlockHeader.parse (zeroBytes 80)) [sampleCoinbase, sampleSegwit]) ↔
        b.firstValues.sum < 2 ^ 64) :=
  parseBlockFull_exactNumbers_iff sampleDigests _ 7 Hash32.zero (BlockHeader.parse (zeroBytes 80)) _
    (parseBlockFull_wire (zeroBytes 80) [sampleCoinbase, sampleSegwit] (by decide)
      sampleTxs_parsable 7 Hash32.zero (BlockHeader.parse (zeroBytes 80)))
    (by rw [sampleBlock_length]; norm_num)

/-- A coinbase transaction that pays the whole money supply `n` times. -/
def repeatedCoinbase (n : Nat) : WireTx where
  version := 1
  inputs := [⟨zeroBytes 32, 0xFFFFFFFF, [], 0⟩]
  outputs := List.replicate n ⟨2100000000000000, []⟩
  locktime := 0
  witness := none

theorem repeatedCoinbase_parsable {n : Nat} (hn : n ≤ Cursor.maxItems) :
    (repeatedCoinbase n).Parsable where
  inputs_ne_nil _ := by simp [repeatedCoinbase]
  inputs_le := by simp [repeatedCoinbase, Cursor.maxItems]
  outputs_le := by simpa [repeatedCoinbase] using hn
  scriptSig_le := by simp [repeatedCoinbase]
  scriptPubkey_le o ho := by
    rw [List.eq_of_mem_replicate ho]
    exact Nat.zero_le _
  value_le o ho := by
    rw [List.eq_of_mem_replicate ho]
    decide
  flag_ne := by simp [repeatedCoinbase]
  witnesses_length := by simp [repeatedCoinbase]
  stack_le := by simp [repeatedCoinbase]
  item_le := by simp [repeatedCoinbase]

theorem compactSize_length_le (n : Nat) : (compactSize n).length ≤ 9 := by
  unfold compactSize
  split_ifs <;> simp

theorem repeatedCoinbase_length_le (n : Nat) :
    (blockBytes (zeroBytes 80) [repeatedCoinbase n]).length ≤ 9 * n + 200 := by
  have hcount := compactSize_length_le n
  have houts : ((repeatedCoinbase n).outputs.map WireOutput.bytes).flatten.length = 9 * n := by
    rw [repeatedCoinbase, List.map_replicate, List.length_flatten, List.map_replicate,
      List.sum_replicate_nat, Nat.mul_comm]
    rfl
  have hlen : (repeatedCoinbase n).outputs.length = n := List.length_replicate
  have hin : (repeatedCoinbase n).inputBytes.length = 42 := rfl
  simp only [blockBytes, List.map_singleton, List.flatten_singleton, List.length_append,
    (zeroBytes 80).toList_length, List.length_singleton]
  change 80 + ((compactSize 1).length + (repeatedCoinbase n).stripped.length) ≤ _
  rw [stripped_length, hin, WireTx.outputBytes, List.length_append, houts, hlen]
  have hone : (compactSize 1).length = 1 := rfl
  omega

/-- The values of the output rows of a block of that transaction alone. -/
theorem repeatedCoinbase_values (D : Digests) (payload : List UInt8) (n : Nat) :
    (wireBlock D payload 0 Hash32.zero (BlockHeader.parse (zeroBytes 80))
      [repeatedCoinbase n]).outputs.map (fun out => out.valueSat.toNat) =
        List.replicate n 2100000000000000 := by
  simp only [wireBlock, List.mapIdx_cons, List.mapIdx_nil, List.map_singleton,
    List.flatten_singleton, WireTx.rows, map_mapIdx]
  apply List.ext_getElem (by simp [repeatedCoinbase])
  intro j h₁ h₂
  simp [WireTx.outputRow, repeatedCoinbase]

/-- Of 8785 outputs each value is legal, and their `u64` sum is not the sum of the outputs. -/
theorem parseBlockFull_coinbase_wraps :
    ∃ block, parseBlockFull (Digests.ofTable [])
        (blockBytes (zeroBytes 80) [repeatedCoinbase 8785]) 0 Hash32.zero
        (BlockHeader.parse (zeroBytes 80)) = .ok block ∧
      (blockBytes (zeroBytes 80) [repeatedCoinbase 8785]).length < 2 ^ 30 ∧
      block.txs.length = 1 ∧
      block.blockRow.coinbaseValue.toNat ≠
        (block.outputs.map fun out => out.valueSat.toNat).sum := by
  have hparsable : ∀ tx ∈ [repeatedCoinbase 8785], tx.Parsable := by
    intro tx htx
    rw [List.mem_singleton.mp htx]
    exact repeatedCoinbase_parsable (by decide)
  refine ⟨_, parseBlockFull_wire (zeroBytes 80) [repeatedCoinbase 8785] (by decide) hparsable 0
    Hash32.zero (BlockHeader.parse (zeroBytes 80)), ?_, ?_, ?_⟩
  · have hle := repeatedCoinbase_length_le 8785
    omega
  · rw [wireBlock, List.length_map, List.length_mapIdx]
    rfl
  · rw [repeatedCoinbase_values, List.sum_replicate_nat]
    have hlt := (wireBlock (Digests.ofTable [])
      (blockBytes (zeroBytes 80) [repeatedCoinbase 8785]) 0 Hash32.zero
      (BlockHeader.parse (zeroBytes 80)) [repeatedCoinbase 8785]).blockRow.coinbaseValue.toNat_lt
    omega

end Bidx
