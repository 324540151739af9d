import Mathlib.Algebra.Order.BigOperators.Group.List
import Bidx.Parser.Tx

/-!
# The shape of parsed rows

What every accepted payload has, whatever its bytes: one row per counted item,
and every input and output row carries the index of a transaction row of the same
block.  `apply_block` indexes its fee list by these, so on parsed blocks it stays
in range.
-/

namespace Bidx

/-- Both halves of a computation that succeeds. -/
theorem except_bind_eq_ok {ε α β : Type} {x : Except ε α} {f : α → Except ε β} {b : β}
    (h : (x >>= f) = .ok b) : ∃ a, x = .ok a ∧ f a = .ok b := by
  cases x with
  | error e => cases h
  | ok a => exact ⟨a, rfl, h⟩

/-- The rows of the transaction with index `txIndex`. -/
structure ParsedTx.AtIndex (p : ParsedTx) (txIndex : UInt32) : Prop where
  tx : p.tx.txIndex = txIndex
  inputs : ∀ inp ∈ p.inputs, inp.txIndex = txIndex
  outputs : ∀ out ∈ p.outputs, out.txIndex = txIndex
  inputs_lt : p.inputs.length < 2 ^ 32
  outputs_lt : p.outputs.length < 2 ^ 32
  coinbase_alone : ∀ inp ∈ p.inputs, inp.isCoinbase = true → p.inputs.length = 1

section Loops

variable {D : Digests} {height txIndex : UInt32}

theorem parseInputs_shape {single : Bool} {rounds : Nat} {inputIndex : UInt32} {c c' : Cursor}
    {rows : List InputRow}
    (h : parseInputs height txIndex single rounds inputIndex c = .ok (rows, c')) :
    rows.length = rounds ∧
      ∀ row ∈ rows, row.txIndex = txIndex ∧ (row.isCoinbase = true → single = true) := by
  induction rounds generalizing inputIndex c rows c' with
  | zero =>
      obtain ⟨rfl, -⟩ := Prod.mk.inj (Except.ok.inj h)
      simp
  | succ rounds ih =>
      rw [parseInputs] at h
      obtain ⟨⟨prevTxid, c₁⟩, -, h⟩ := except_bind_eq_ok h
      obtain ⟨⟨prevVout, c₂⟩, -, h⟩ := except_bind_eq_ok h
      obtain ⟨⟨scriptLen, c₃⟩, -, h⟩ := except_bind_eq_ok h
      obtain ⟨c₄, -, h⟩ := except_bind_eq_ok h
      obtain ⟨⟨sequence, c₅⟩, -, h⟩ := except_bind_eq_ok h
      obtain ⟨⟨rest, c₆⟩, hrest, h⟩ := except_bind_eq_ok h
      obtain ⟨rfl, -⟩ := Prod.mk.inj (Except.ok.inj h)
      obtain ⟨hlen, hall⟩ := ih hrest
      refine ⟨by rw [List.length_cons, hlen], ?_⟩
      intro row hrow
      rcases List.mem_cons.mp hrow with rfl | hmem
      · refine ⟨rfl, fun hcoinbase => ?_⟩
        simp only [Bool.and_eq_true] at hcoinbase
        exact hcoinbase.1.1.1
      · exact hall row hmem

theorem parseOutputs_shape {rounds : Nat} {outputIndex : UInt32} {c c' : Cursor}
    {rows : List OutputRow}
    (h : parseOutputs D height txIndex rounds outputIndex c = .ok (rows, c')) :
    rows.length = rounds ∧ ∀ row ∈ rows, row.txIndex = txIndex := by
  induction rounds generalizing outputIndex c rows c' with
  | zero =>
      obtain ⟨rfl, -⟩ := Prod.mk.inj (Except.ok.inj h)
      simp
  | succ rounds ih =>
      rw [parseOutputs] at h
      obtain ⟨⟨valueSat, c₁⟩, -, h⟩ := except_bind_eq_ok h
      dsimp only at h
      split at h
      · contradiction
      · obtain ⟨⟨spkLen, c₂⟩, -, h⟩ := except_bind_eq_ok h
        obtain ⟨⟨spk, c₃⟩, -, h⟩ := except_bind_eq_ok h
        obtain ⟨⟨rest, c₄⟩, hrest, h⟩ := except_bind_eq_ok h
        obtain ⟨rfl, -⟩ := Prod.mk.inj (Except.ok.inj h)
        obtain ⟨hlen, hall⟩ := ih hrest
        refine ⟨by rw [List.length_cons, hlen], ?_⟩
        intro row hrow
        rcases List.mem_cons.mp hrow with rfl | hmem
        · rfl
        · exact hall row hmem

/-- The witness pass keeps every row's index and flag. -/
theorem readWitnesses_shape {P : UInt32 → Bool → Prop} {inputs rows : List InputRow}
    {c c' : Cursor} (hall : ∀ inp ∈ inputs, P inp.txIndex inp.isCoinbase)
    (h : readWitnesses inputs c = .ok (rows, c')) :
    rows.length = inputs.length ∧ ∀ row ∈ rows, P row.txIndex row.isCoinbase := by
  induction inputs generalizing c rows c' with
  | nil =>
      obtain ⟨rfl, -⟩ := Prod.mk.inj (Except.ok.inj h)
      simp
  | cons inp inputs ih =>
      rw [readWitnesses] at h
      obtain ⟨⟨itemCount, c₁⟩, -, h⟩ := except_bind_eq_ok h
      obtain ⟨⟨witnessBytes, c₂⟩, -, h⟩ := except_bind_eq_ok h
      obtain ⟨⟨rest, c₃⟩, hrest, h⟩ := except_bind_eq_ok h
      obtain ⟨rfl, -⟩ := Prod.mk.inj (Except.ok.inj h)
      obtain ⟨hlen, hrows⟩ := ih (fun inp hmem => hall inp (List.mem_cons_of_mem _ hmem)) hrest
      refine ⟨by rw [List.length_cons, List.length_cons, hlen], ?_⟩
      intro row hrow
      rcases List.mem_cons.mp hrow with rfl | hmem
      · exact hall inp List.mem_cons_self
      · exact hrows row hmem

theorem parseTx_shape {c c' : Cursor} {block : List UInt8} {p : ParsedTx}
    (h : parseTx D c block height txIndex = .ok (p, c')) : p.AtIndex txIndex := by
  rw [parseTx] at h
  obtain ⟨⟨version, c₁⟩, -, h⟩ := except_bind_eq_ok h
  obtain ⟨⟨marker, c₂⟩, -, h⟩ := except_bind_eq_ok h
  obtain ⟨⟨inputCount, c₃⟩, -, h⟩ := except_bind_eq_ok h
  obtain ⟨⟨inputs, c₄⟩, hinputs, h⟩ := except_bind_eq_ok h
  obtain ⟨⟨outputCount, c₅⟩, -, h⟩ := except_bind_eq_ok h
  obtain ⟨⟨outputs, c₆⟩, houtputs, h⟩ := except_bind_eq_ok h
  obtain ⟨hinLen, hin⟩ := parseInputs_shape hinputs
  obtain ⟨houtLen, hout⟩ := parseOutputs_shape houtputs
  -- With or without a witness pass, the rows are kept one for one.
  obtain ⟨rows, hrows, htx, hins, houts⟩ : ∃ rows : List InputRow,
      (rows.length = inputs.length ∧ ∀ row ∈ rows, row.txIndex = txIndex ∧
        (row.isCoinbase = true → decide (inputCount = 1) = true)) ∧
      p.tx.txIndex = txIndex ∧ p.inputs = rows.map (fun inp => { inp with txid := p.tx.txid }) ∧
      p.outputs = outputs.map fun out => { out with txid := p.tx.txid } := by
    dsimp only at h
    split at h
    · obtain ⟨⟨witnessed, c₇⟩, hwitnessed, h⟩ := except_bind_eq_ok h
      obtain ⟨⟨locktime, c₈⟩, -, h⟩ := except_bind_eq_ok h
      obtain ⟨rfl, -⟩ := Prod.mk.inj (Except.ok.inj h)
      exact ⟨witnessed, readWitnesses_shape (P := fun index flag => index = txIndex ∧
        (flag = true → decide (inputCount = 1) = true)) hin hwitnessed, rfl, rfl, rfl⟩
    · obtain ⟨⟨plain, c₇⟩, hplain, h⟩ := except_bind_eq_ok h
      obtain ⟨⟨locktime, c₈⟩, -, h⟩ := except_bind_eq_ok h
      obtain ⟨rfl, -⟩ := Prod.mk.inj (Except.ok.inj hplain)
      obtain ⟨rfl, -⟩ := Prod.mk.inj (Except.ok.inj h)
      exact ⟨_, ⟨rfl, hin⟩, rfl, rfl, rfl⟩
  constructor
  case tx => exact htx
  case inputs =>
    intro inp hmem
    rw [hins] at hmem
    obtain ⟨row, hrow, rfl⟩ := List.mem_map.mp hmem
    exact (hrows.2 row hrow).1
  case outputs =>
    intro out hmem
    rw [houts] at hmem
    obtain ⟨row, hrow, rfl⟩ := List.mem_map.mp hmem
    exact hout row hrow
  case inputs_lt =>
    rw [hins, List.length_map, hrows.1, hinLen]
    exact UInt32.toNat_lt _
  case outputs_lt =>
    rw [houts, List.length_map, houtLen]
    exact UInt32.toNat_lt _
  case coinbase_alone =>
    intro inp hmem hcoinbase
    rw [hins] at hmem
    obtain ⟨row, hrow, rfl⟩ := List.mem_map.mp hmem
    obtain rfl : inputCount = 1 := of_decide_eq_true ((hrows.2 row hrow).2 hcoinbase)
    rw [hins, List.length_map, hrows.1, hinLen]
    rfl

theorem parseTxs_shape {payload : List UInt8} {rounds : Nat} {c c' : Cursor}
    {parsed : List ParsedTx} (h : parseTxs D payload height rounds txIndex c = .ok (parsed, c')) :
    parsed.length = rounds ∧
      ∀ (i : Nat) (p : ParsedTx), parsed[i]? = some p → p.AtIndex (txIndex + UInt32.ofNat i) := by
  induction rounds generalizing txIndex c parsed c' with
  | zero =>
      obtain ⟨rfl, -⟩ := Prod.mk.inj (Except.ok.inj h)
      simp
  | succ rounds ih =>
      rw [parseTxs] at h
      obtain ⟨⟨tx, c₁⟩, htx, h⟩ := except_bind_eq_ok h
      obtain ⟨⟨txs, c₂⟩, htxs, h⟩ := except_bind_eq_ok h
      obtain ⟨rfl, -⟩ := Prod.mk.inj (Except.ok.inj h)
      obtain ⟨hlen, hall⟩ := ih htxs
      refine ⟨by rw [List.length_cons, hlen], ?_⟩
      intro i p hp
      cases i with
      | zero =>
          obtain rfl : tx = p := by simpa using hp
          simpa using parseTx_shape htx
      | succ i =>
          have hindex : txIndex + UInt32.ofNat (i + 1) = txIndex + 1 + UInt32.ofNat i := by
            apply UInt32.toNat_inj.mp
            simp only [UInt32.toNat_add, UInt32.toNat_ofNat', UInt32.toNat_one]
            omega
          rw [hindex]
          exact hall i p (by simpa using hp)

end Loops

/-- The rows of an accepted block. -/
structure FullBlock.WellShaped (block : FullBlock) : Prop where
  txs : ∀ (i : Nat) (tx : TxRow), block.txs[i]? = some tx → tx.txIndex.toNat = i
  inputs : ∀ inp ∈ block.inputs, inp.txIndex.toNat < block.txs.length
  outputs : ∀ out ∈ block.outputs, out.txIndex.toNat < block.txs.length
  inputs_lt : block.inputs.length < 2 ^ 64
  outputs_lt : block.outputs.length < 2 ^ 64

theorem length_flatten_lt {α : Type} {ls : List (List α)} (hls : ls.length < 2 ^ 32)
    (hl : ∀ l ∈ ls, l.length < 2 ^ 32) : ls.flatten.length < 2 ^ 64 := by
  have hbound : ls.flatten.length ≤ ls.length * (2 ^ 32 - 1) := by
    rw [List.length_flatten]
    refine (List.sum_le_card_nsmul _ (2 ^ 32 - 1) ?_).trans (by simp)
    intro n hn
    obtain ⟨l, hmem, rfl⟩ := List.mem_map.mp hn
    have := hl l hmem
    omega
  have : ls.length * (2 ^ 32 - 1) ≤ (2 ^ 32 - 1) * (2 ^ 32 - 1) :=
    Nat.mul_le_mul_right _ (by omega)
  omega

/-- What an accepted block was assembled from. -/
structure ParsedFrom (payload : List UInt8) (height : UInt32) (hash : Hash32)
    (header : BlockHeader) (parsed : List ParsedTx) (block : FullBlock) : Prop where
  length_lt : parsed.length < 2 ^ 32
  index : ∀ (i : Nat) (p : ParsedTx), parsed[i]? = some p →
    p.AtIndex (UInt32.ofNat i) ∧ (UInt32.ofNat i).toNat = i ∧ i < parsed.length
  txs : block.txs = parsed.map ParsedTx.tx
  inputs : block.inputs = (parsed.map ParsedTx.inputs).flatten
  outputs : block.outputs = (parsed.map ParsedTx.outputs).flatten
  height : block.blockRow.height = height
  hash : block.blockRow.hash = hash
  prevHash : block.blockRow.prevHash = header.prevHash
  payload : blockHeaderLen ≤ payload.length

section Block

variable {D : Digests} {payload : List UInt8} {height : UInt32} {hash : Hash32}
  {header : BlockHeader} {block : FullBlock} {parsed : List ParsedTx}

theorem exists_parsedFrom (h : parseBlockFull D payload height hash header = .ok block) :
    ∃ parsed, ParsedFrom payload height hash header parsed block := by
  rw [parseBlockFull] at h
  obtain ⟨c₁, hskip, h⟩ := except_bind_eq_ok h
  obtain ⟨⟨txCount, c₂⟩, -, h⟩ := except_bind_eq_ok h
  obtain ⟨⟨parsed, c₃⟩, hparsed, h⟩ := except_bind_eq_ok h
  dsimp only at h
  split at h
  · contradiction
  · obtain rfl := Except.ok.inj h
    obtain ⟨hlen, hall⟩ := parseTxs_shape hparsed
    have hlt : parsed.length < 2 ^ 32 := by
      rw [hlen]
      exact UInt32.toNat_lt _
    refine ⟨parsed, hlt, ?_, rfl, rfl, rfl, rfl, rfl, rfl, ?_⟩
    · intro i p hp
      have hi : i < parsed.length := (List.getElem?_eq_some_iff.mp hp).1
      have hat := hall i p hp
      rw [UInt32.zero_add] at hat
      refine ⟨hat, ?_, hi⟩
      rw [UInt32.toNat_ofNat', Nat.mod_eq_of_lt (by omega)]
    · by_contra hshort
      have hrem : (Cursor.new payload).remaining < 80 := by
        simp only [Cursor.new, Cursor.remaining, blockHeaderLen] at hshort ⊢
        omega
      rw [Cursor.skip, Cursor.need, if_pos hrem] at hskip
      contradiction

namespace ParsedFrom

/-- The transaction an input row belongs to. -/
theorem of_mem_inputs (h : ParsedFrom payload height hash header parsed block) {inp : InputRow}
    (hinp : inp ∈ block.inputs) : ∃ (i : Nat) (p : ParsedTx), parsed[i]? = some p ∧
      inp ∈ p.inputs ∧ inp.txIndex.toNat = i := by
  rw [h.inputs] at hinp
  obtain ⟨rows, hrows, hinp⟩ := List.mem_flatten.mp hinp
  obtain ⟨p, hp, rfl⟩ := List.mem_map.mp hrows
  obtain ⟨i, hi⟩ := List.mem_iff_getElem?.mp hp
  obtain ⟨hat, hnat, -⟩ := h.index i p hi
  exact ⟨i, p, hi, hinp, by rw [hat.inputs inp hinp, hnat]⟩

theorem of_mem_outputs (h : ParsedFrom payload height hash header parsed block) {out : OutputRow}
    (hout : out ∈ block.outputs) : ∃ (i : Nat) (p : ParsedTx), parsed[i]? = some p ∧
      out ∈ p.outputs ∧ out.txIndex.toNat = i := by
  rw [h.outputs] at hout
  obtain ⟨rows, hrows, hout⟩ := List.mem_flatten.mp hout
  obtain ⟨p, hp, rfl⟩ := List.mem_map.mp hrows
  obtain ⟨i, hi⟩ := List.mem_iff_getElem?.mp hp
  obtain ⟨hat, hnat, -⟩ := h.index i p hi
  exact ⟨i, p, hi, hout, by rw [hat.outputs out hout, hnat]⟩

theorem wellShaped (h : ParsedFrom payload height hash header parsed block) :
    block.WellShaped := by
  have hrows : ∀ p ∈ parsed, p.inputs.length < 2 ^ 32 ∧ p.outputs.length < 2 ^ 32 := by
    intro p hp
    obtain ⟨i, hi⟩ := List.mem_iff_getElem?.mp hp
    obtain ⟨hat, -⟩ := h.index i p hi
    exact ⟨hat.inputs_lt, hat.outputs_lt⟩
  constructor
  case txs =>
    intro i tx htx
    rw [h.txs, List.getElem?_map] at htx
    obtain ⟨p, hp, rfl⟩ := Option.map_eq_some_iff.mp htx
    obtain ⟨hat, hnat, -⟩ := h.index i p hp
    rw [hat.tx, hnat]
  case inputs =>
    intro inp hinp
    obtain ⟨i, p, hp, -, hindex⟩ := h.of_mem_inputs hinp
    rw [hindex, h.txs, List.length_map]
    exact (h.index i p hp).2.2
  case outputs =>
    intro out hout
    obtain ⟨i, p, hp, -, hindex⟩ := h.of_mem_outputs hout
    rw [hindex, h.txs, List.length_map]
    exact (h.index i p hp).2.2
  case inputs_lt =>
    rw [h.inputs]
    apply length_flatten_lt
    · rw [List.length_map]
      exact h.length_lt
    · intro rows hmemRows
      obtain ⟨p, hp, rfl⟩ := List.mem_map.mp hmemRows
      exact (hrows p hp).1
  case outputs_lt =>
    rw [h.outputs]
    apply length_flatten_lt
    · rw [List.length_map]
      exact h.length_lt
    · intro rows hmemRows
      obtain ⟨p, hp, rfl⟩ := List.mem_map.mp hmemRows
      exact (hrows p hp).2

/-- A coinbase input is the only input of its transaction. -/
theorem coinbase_alone (h : ParsedFrom payload height hash header parsed block)
    {inp inp' : InputRow} (hinp : inp ∈ block.inputs) (hinp' : inp' ∈ block.inputs)
    (hcoinbase : inp.isCoinbase = true) (hindex : inp'.txIndex = inp.txIndex) : inp' = inp := by
  obtain ⟨i, p, hp, hmem, hi⟩ := h.of_mem_inputs hinp
  obtain ⟨j, p', hp', hmem', hj⟩ := h.of_mem_inputs hinp'
  obtain rfl : j = i := by rw [← hj, ← hi, hindex]
  obtain rfl := Option.some.inj (hp.symm.trans hp')
  obtain ⟨only, honly⟩ := List.length_eq_one_iff.mp
    ((h.index j p hp).1.coinbase_alone inp hmem hcoinbase)
  rw [honly, List.mem_singleton] at hmem hmem'
  rw [hmem, hmem']

end ParsedFrom

theorem parseBlockFull_shape (h : parseBlockFull D payload height hash header = .ok block) :
    block.WellShaped ∧ block.blockRow.hash = hash ∧ block.blockRow.prevHash = header.prevHash ∧
      blockHeaderLen ≤ payload.length := by
  obtain ⟨parsed, hfrom⟩ := exists_parsedFrom h
  exact ⟨hfrom.wellShaped, hfrom.hash, hfrom.prevHash, hfrom.payload⟩

theorem parseBlockFull_height (h : parseBlockFull D payload height hash header = .ok block) :
    block.blockRow.height = height := by
  obtain ⟨parsed, hfrom⟩ := exists_parsedFrom h
  exact hfrom.height

end Block

end Bidx
